import SheetDiff.Proofs.Css.Edge
import SheetDiff.Proofs.Sheet.Agreement

/-!
# Texts without faults

A text without character set statements is read without warnings if its nodes are read without faults
(`readAs_iff`).
-/

namespace SheetDiff

open Css (Kind Node Token)
open Css.Node (allTokens)

variable {css : String} {ns ms : List Node} {rules : List Rule}

/-- A text that is read without warnings, as rules that are `rules` but for lines. -/
def ReadAs (css : String) (rules : List Rule) : Prop :=
  ∃ s, Stylesheet.parse css = .ok s ∧ s.warnings = [] ∧ Rule.allUnlined s.rules = rules

theorem ordinary_of_reads {k : List Char} (h : Css.Reads (allTokens ns) k)
    (hc : ∀ t ∈ allTokens ns, ∀ name, t.kind = .atKeyword name → name.toLower ≠ "charset") :
    Ordinary ns := by
  refine ⟨fun t ht hk => ?_, hc⟩
  obtain ⟨xs, ys, hts⟩ := List.append_of_mem ht
  rw [hts] at h
  exact (Css.reads_append.1 h).2.1.edge (by rw [hk]; rfl)

/-- The nodes of a text without character set statements. -/
theorem ordinary_ofText
    (hc : ∀ t ∈ Css.tokens css.toList, ∀ name, t.kind = .atKeyword name →
      name.toLower ≠ "charset") : Ordinary (Node.ofText css.toList) := by
  have htokens := Node.allTokens_ofText css.toList
  refine ordinary_of_reads (k := []) ?_ ?_
  · rw [htokens]
    exact Css.reads_tokens css.toList
  · rwa [htokens]

/-- Nodes without a character set statement are read as a rule list. -/
theorem ofNodes_eq (h : NoCharset ns) :
    Stylesheet.ofNodes ns = (readRules ns).map fun l => ⟨l.rules, l.warnings⟩ := by
  have hplain : (do
      let listing ← readRules ns
      .ok ⟨listing.rules, listing.warnings⟩ : Except ParseError Stylesheet) =
        (readRules ns).map fun l => ⟨l.rules, l.warnings⟩ := by
    cases readRules ns <;> rfl
  unfold Stylesheet.ofNodes
  split
  · rename_i name source line rest
    have hn : isCharset (.leaf ⟨.atKeyword name, source, line⟩) = false := h _ List.mem_cons_self
    rw [if_neg (isCharset_leaf_eq_false.1 hn name rfl)]
    exact hplain
  · exact hplain

private theorem bare_ofNodes (h : NoCharset ns) : Stylesheet.bare (Stylesheet.ofNodes ns) =
    (listingOf ns).map fun l => ⟨l.rules, l.warnings⟩ := by
  rw [ofNodes_eq h, listingOf]
  cases readRules ns <;> rfl

/-- Nodes that are equal but for lines are read alike. -/
theorem result_eq_of_unlined (h : ms.map Css.Node.unlined = ns.map Css.Node.unlined) :
    Role.rules.result ms = Role.rules.result ns := by
  have hmap (xs : List Node) : listingOf (xs.map Css.Node.unlined) = listingOf xs :=
    listingOf_map Css.respaces_unlined xs
  unfold Role.result
  simp only
  rw [← hmap ms, ← hmap ns, h]

/-- A text is read without warnings if its nodes are read without faults. -/
theorem readAs_iff (h : NoCharset (Node.ofText css.toList)) :
    ReadAs css rules ↔ Role.rules.result (Node.ofText css.toList) = some ⟨[], rules, []⟩ := by
  have hb : Stylesheet.bare (Stylesheet.parse css) = _ := bare_ofNodes h
  have hr : Role.rules.result (Node.ofText css.toList) =
      Listing.sound (listingOf (Node.ofText css.toList)) := rfl
  rw [hr]
  unfold ReadAs
  generalize listingOf (Node.ofText css.toList) = l at hb ⊢
  cases hp : Stylesheet.parse css with
  | error e =>
    rw [hp] at hb
    cases l with
    | error m => simp [Listing.sound]
    | ok l => simp [Stylesheet.bare, Except.map] at hb
  | ok s =>
    rw [hp] at hb
    cases l with
    | error m => simp [Stylesheet.bare, Except.map] at hb
    | ok l =>
      have hs : s.unlined = ⟨l.rules, l.warnings⟩ := Except.ok.inj hb
      have hrules : Rule.allUnlined s.rules = l.rules := congrArg Stylesheet.rules hs
      have hwarnings : s.warnings.map Warning.unlined = l.warnings :=
        congrArg Stylesheet.warnings hs
      simp only [Listing.sound, Contents.sound, ← hrules, ← hwarnings]
      cases hw : s.warnings with
      | nil => simp [hw]
      | cons w ws => simp [hw]

end SheetDiff
