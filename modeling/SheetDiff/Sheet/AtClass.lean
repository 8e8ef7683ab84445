/-!
# Classes of at-rules

The name of an at-rule, upper and lower case alike and any vendor prefix left aside, decides
whether the rule needs a block and what its block holds.
-/

namespace SheetDiff

/-- What an at-rule holds. -/
inductive AtClass where
  /-- A block of declarations. -/
  | declarations
  /-- A block of rules. -/
  | rules
  /-- A block of rules, or none. -/
  | optional
  deriving DecidableEq, Repr, Inhabited

namespace AtClass

/-- Takes off a prefix such as `-moz-`. -/
def unprefixed : List Char → List Char
  | '-' :: cs => if cs.contains '-' then (cs.dropWhile (· ≠ '-')).tail else '-' :: cs
  | cs => cs

/-- Rules of descriptors, the margin boxes of pages, and the blocks of font feature values. -/
def declarationNames : List String :=
  ["font-face", "page", "counter-style", "property", "viewport", "font-palette-values",
    "top-left-corner", "top-left", "top-center", "top-right", "top-right-corner",
    "bottom-left-corner", "bottom-left", "bottom-center", "bottom-right", "bottom-right-corner",
    "left-top", "left-middle", "left-bottom", "right-top", "right-middle", "right-bottom",
    "swash", "annotation", "ornaments", "stylistic", "styleset", "character-variant",
    "historical-forms"]

/-- Rules that group other rules. -/
def ruleNames : List String :=
  ["media", "supports", "document", "container", "keyframes", "scope", "starting-style",
    "font-feature-values"]

/-- The class of an at-rule by its name. -/
def ofName (name : String) : AtClass :=
  let bare := String.ofList (unprefixed name.toLower.toList)
  if declarationNames.contains bare then declarations
  else if ruleNames.contains bare then rules
  else optional

end AtClass

end SheetDiff
