import SheetDiff.Sheet.Parse

/-!
# Sheets without lines

What is read from a sheet carries the lines it was read from. `Rule.allUnlined`, `Contents.unlined`
and `Listing.unlined` take them off; a reading that ends with an error keeps the message of the error
only (`Listing.bare`, `Stylesheet.bare`). Contents and listings are put together alike with and
without lines (`Contents.unlined_concat`, `Listing.bare_concat_cons`).
-/

namespace SheetDiff

/-! ## Rules without lines -/

theorem Rule.mapAllLines_append (f : Nat → Nat) (rs ss : List Rule) :
    Rule.mapAllLines f (rs ++ ss) = Rule.mapAllLines f rs ++ Rule.mapAllLines f ss := by
  induction rs with
  | nil => rfl
  | cons r rs ih => rw [List.cons_append, Rule.mapAllLines, ih, Rule.mapAllLines, List.cons_append]

theorem Rule.isEmpty_mapAllLines (f : Nat → Nat) (rs : List Rule) :
    (Rule.mapAllLines f rs).isEmpty = rs.isEmpty := by
  cases rs <;> rfl

def Declaration.unlined (d : Declaration) : Declaration := d.mapLine fun _ => 0
def Rule.unlined (r : Rule) : Rule := r.mapLines fun _ => 0
def AtBody.unlined (b : AtBody) : AtBody := b.mapLines fun _ => 0
def Warning.unlined (w : Warning) : Warning := { w with line := 0 }

/-- Rules without lines at every depth. -/
def Rule.allUnlined (rs : List Rule) : List Rule := Rule.mapAllLines (fun _ => 0) rs

/-! ## Contents and listings without lines -/

/-- Contents with other lines, at every depth. -/
def Contents.mapLines (f : Nat → Nat) (c : Contents) : Contents :=
  ⟨c.declarations.map (Declaration.mapLine f), Rule.mapAllLines f c.rules,
    c.warnings.map fun w => { w with line := f w.line }⟩

def Contents.unlined (c : Contents) : Contents :=
  ⟨c.declarations.map Declaration.unlined, Rule.allUnlined c.rules, c.warnings.map Warning.unlined⟩

def Contents.empty : Contents := ⟨[], [], []⟩

/-- The contents of two parts in order. -/
def Contents.append (c d : Contents) : Contents :=
  ⟨c.declarations ++ d.declarations, c.rules ++ d.rules, c.warnings ++ d.warnings⟩

theorem Contents.concat_cons (c : Contents) (cs : List Contents) :
    Contents.concat (c :: cs) = c.append (.concat cs) := rfl

theorem Contents.mapLines_append (f : Nat → Nat) (c d : Contents) :
    (c.append d).mapLines f = (c.mapLines f).append (d.mapLines f) := by
  simp [mapLines, append, Rule.mapAllLines_append]

theorem Contents.mapLines_concat (f : Nat → Nat) (cs : List Contents) :
    (Contents.concat cs).mapLines f = .concat (cs.map (.mapLines f)) := by
  induction cs with
  | nil => rfl
  | cons c cs ih =>
    rw [Contents.concat_cons, mapLines_append, ih, List.map_cons, Contents.concat_cons]

theorem Contents.body_mapLines (f : Nat → Nat) (c : Contents) :
    (c.mapLines f).body = c.body.mapLines f := by
  have hr : (c.mapLines f).rules.isEmpty = c.rules.isEmpty := Rule.isEmpty_mapAllLines _ _
  have hd : (c.mapLines f).declarations.isEmpty = c.declarations.isEmpty := by
    simp [mapLines]
  unfold Contents.body
  rw [hr, hd]
  split
  · rfl
  · split <;> rfl

theorem Contents.unlined_concat (cs : List Contents) :
    (Contents.concat cs).unlined = .concat (cs.map Contents.unlined) :=
  mapLines_concat (fun _ => 0) cs

theorem Contents.body_unlined (c : Contents) : c.unlined.body = c.body.unlined :=
  c.body_mapLines fun _ => 0

/-- An item read as a reading that differs in lines only is read as the same kind of thing. -/
def Reading.unlined : Reading → Reading
  | .declaration d => .declaration d.unlined
  | r => r

/-! ## Listings without lines -/

def Listing.unlined (l : Listing) : Listing :=
  ⟨Rule.allUnlined l.rules, l.warnings.map Warning.unlined⟩

def Listing.empty : Listing := ⟨[], []⟩

def Listing.append (l m : Listing) : Listing := ⟨l.rules ++ m.rules, l.warnings ++ m.warnings⟩

theorem Listing.unlined_append (l m : Listing) :
    (l.append m).unlined = l.unlined.append m.unlined := by
  simp [Listing.unlined, Listing.append, Rule.allUnlined, Rule.mapAllLines_append]

/-- A listing without lines, or the message of the error. -/
def Listing.bare : Except ParseError Listing → Except String Listing
  | .ok l => .ok l.unlined
  | .error e => .error e.message

/-- Two listings in order, or the first error among them. -/
def Listing.join : Except String Listing → Except String Listing → Except String Listing
  | .ok l, .ok m => .ok (l.append m)
  | .ok _, .error e => .error e
  | .error e, _ => .error e

/-- A listing behind some rules. -/
def Listing.behind (rules : List Rule) (l : Except String Listing) : Except String Listing :=
  l.map fun l => ⟨rules ++ l.rules, l.warnings⟩

theorem Listing.behind_nil (l : Except String Listing) : behind [] l = l := by
  cases l <;> rfl

theorem Listing.behind_behind (rs ss : List Rule) (l : Except String Listing) :
    behind rs (behind ss l) = behind (rs ++ ss) l := by
  cases l <;> simp [behind, Except.map]

theorem Listing.behind_join (rs : List Rule) (l m : Except String Listing) :
    behind rs (join l m) = join (behind rs l) m := by
  cases l <;> cases m <;> simp [behind, join, Except.map, Listing.append]

theorem Listing.bare_concat_cons (l : Except ParseError Listing)
    (ls : List (Except ParseError Listing)) :
    bare (Listing.concat (l :: ls)) = join (bare l) (bare (Listing.concat ls)) := by
  rw [Listing.concat]
  cases l with
  | error e => rfl
  | ok a =>
    cases hc : Listing.concat ls with
    | error e => rfl
    | ok m => exact congrArg Except.ok (Listing.unlined_append a m)

theorem Listing.bare_concat_congr {ls ms : List (Except ParseError Listing)}
    (h : ls.map bare = ms.map bare) : bare (Listing.concat ls) = bare (Listing.concat ms) := by
  induction ls generalizing ms with
  | nil =>
    obtain rfl : ms = [] := by simpa using h.symm
    rfl
  | cons l ls ih =>
    cases ms with
    | nil => simp at h
    | cons m ms =>
      obtain ⟨hl, hls⟩ := List.cons.inj h
      rw [bare_concat_cons, bare_concat_cons, hl, ih hls]

/-! ## Whole sheets without lines -/

def Stylesheet.unlined (s : Stylesheet) : Stylesheet :=
  ⟨Rule.allUnlined s.rules, s.warnings.map Warning.unlined⟩

/-- A sheet without lines, or the message of the error. -/
def Stylesheet.bare : Except ParseError Stylesheet → Except String Stylesheet
  | .ok s => .ok s.unlined
  | .error e => .error e.message

end SheetDiff
