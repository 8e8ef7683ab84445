import Mathlib.Data.List.DropRight
import SheetDiff.Proofs.Css.Spell

/-!
# Collapsed sources

The collapsed source of nodes as they stand in a well-formed text (`Node.Written`) is that of the nodes
without the white space around them, with the white space inside of them squeezed (`reads_collapse`):
a text that spells these nodes wherever it stands (`spells_collapse`).
-/

namespace SheetDiff.Css

open Node (AllFit allTokens)

variable {b : Option Bracket} {k : List Char} {t : Token} {ns ms : List Node} {n : Node}

/-! ## Nodes of a well-formed text -/

/-- Nodes as they stand in a bracket in a well-formed text: their tokens are closed and are read from
their sources. -/
structure Node.Written (b : Option Bracket) (ns : List Node) : Prop where
  fit : AllFit b ns
  reads : ∃ k, '\\' ∉ k ∧ Reads (allTokens ns) k
  closed : ∀ t ∈ allTokens ns, t.IsClosed
  regular : Regular (Node.source ns)

namespace Node.Written

/-- The part between two others. -/
theorem part {xs ys : List Node} (h : Written b (xs ++ (ns ++ ys))) : Written b ns := by
  obtain ⟨k, hk, hr⟩ := h.reads
  have hreg := h.regular
  have hclosed := h.closed
  simp only [Node.allTokens_append, Node.source_append] at hr hreg hclosed
  refine ⟨?_, ⟨sourceOf (allTokens ys) ++ k, ?_, ?_⟩, ?_, ?_⟩
  · exact Node.allFit_iff.2 fun n hn => Node.allFit_iff.1 h.fit n (by simp [hn])
  · rw [List.mem_append, not_or]
    refine ⟨fun hm => hreg.backslash ?_, hk⟩
    rw [← Node.source_eq] at hm
    simp [hm]
  · exact (reads_append.1 (reads_append.1 hr).2).1
  · exact fun t ht => hclosed t (by simp [ht])
  · exact hreg.mono fun c hc => by simp [hc]

theorem left (h : Written b (ns ++ ms)) : Written b ns := by
  have hp : Written b ([] ++ (ns ++ ms)) := h
  exact hp.part

theorem right (h : Written b (ns ++ ms)) : Written b ms := by
  have hp : Written b (ns ++ (ms ++ [])) := by rwa [List.append_nil]
  exact hp.part

theorem of_infix (h : Written b ns) (hi : ms <:+: ns) : Written b ms := by
  obtain ⟨xs, ys, rfl⟩ := hi
  rw [List.append_assoc] at h
  exact h.part

theorem head (h : Written b (n :: ns)) : Written b [n] := h.of_infix ⟨[], ns, rfl⟩

theorem tail (h : Written b (n :: ns)) : Written b ns := h.of_infix ⟨[n], [], by simp⟩

theorem readsOne (h : Written b ns) (ht : t ∈ allTokens ns) : ∃ k, ReadsOne t k := by
  obtain ⟨k, -, hr⟩ := h.reads
  obtain ⟨us, vs, hts⟩ := List.append_of_mem ht
  rw [hts] at hr
  exact ⟨_, (reads_append.1 hr).2.1⟩

/-- The contents of a block. -/
theorem inner {opener : Token} {closer : Option Token} (h : Written b [.block opener ns closer]) :
    ∃ c t, opener.kind.opens? = some c ∧ closer = some t ∧ t.kind.closes? = some c ∧
      Written (some c) ns := by
  obtain ⟨⟨c, t, ho, rfl, hc, hfit⟩, -⟩ := h.fit
  obtain ⟨k, hk, hr⟩ := h.reads
  have hreg := h.regular
  have hclosed := h.closed
  simp only [Node.source_eq, allTokens, Node.tokens, Option.toList_some, List.append_nil,
    sourceOf_cons, sourceOf_append, sourceOf_nil] at hr hreg hclosed
  refine ⟨c, t, ho, rfl, hc, hfit, ⟨t.source ++ k, ?_, ?_⟩, ?_, ?_⟩
  · rw [List.mem_append, not_or]
    exact ⟨fun hm => hreg.backslash (by simp [hm]), hk⟩
  · have hin := (reads_append.1 hr.2).1
    simpa using hin
  · exact fun u hu => hclosed u (by simp [hu])
  · rw [Node.source_eq]
    exact hreg.mono fun d hd => by simp [hd]

end Node.Written

/-! ## White space around nodes -/

namespace Node

/-- A token of its own that is white space. -/
def isBlank (n : Node) : Bool := n.isLeaf (· = .whitespace)

/-- Nodes without the white space around them. -/
def trim (ns : List Node) : List Node := (ns.dropWhile isBlank).rdropWhile isBlank

/-- A token of a list of leaves is one of the leaves. -/
theorem exists_leaf {p : Kind → Bool} (h : ∀ n ∈ ns, n.isLeaf p = true) (ht : t ∈ allTokens ns) :
    leaf t ∈ ns ∧ p t.kind = true := by
  rw [allTokens_eq_flatMap, List.mem_flatMap] at ht
  obtain ⟨n, hn, ht⟩ := ht
  cases n with
  | leaf u =>
    obtain rfl := List.mem_singleton.1 ht
    exact ⟨hn, h _ hn⟩
  | block opener inner closer => simpa [isLeaf, isBlock] using h _ hn

/-- White space holds blanks only. -/
theorem blanks_of_isBlank (hb : ∀ n ∈ ns, n.isBlank = true) (hr : Reads (allTokens ns) k) :
    Blanks (source ns) := by
  intro c hc
  obtain ⟨t, ht, hct⟩ := List.mem_flatMap.1 hc
  obtain ⟨us, vs, hts⟩ := List.append_of_mem ht
  rw [hts] at hr
  obtain ⟨hone, -⟩ := (reads_append.1 hr).2
  exact (hone.whitespace (of_decide_eq_true (exists_leaf hb ht).2)).1 c hct

/-- The white space at the end of a list of nodes. -/
theorem exists_blank_end (ns : List Node) : ∃ ys, ns = ns.rdropWhile isBlank ++ ys ∧
    (∀ n ∈ ys, n.isBlank = true) ∧ ∀ n ∈ (ns.rdropWhile isBlank).getLast?, n.isBlank = false := by
  refine ⟨ns.rtakeWhile isBlank, List.rdropWhile_append_rtakeWhile.symm, ?_, ?_⟩
  · intro n hn
    exact List.mem_rtakeWhile_imp hn
  · intro n hn
    have hne : ns.rdropWhile isBlank ≠ [] := by
      intro he
      simp [he] at hn
    have hnot := List.rdropWhile_last_not isBlank ns hne
    rw [List.getLast?_eq_some_getLast hne] at hn
    obtain rfl := Option.some.inj hn
    simpa using hnot

/-- The white space around a list of nodes. -/
theorem exists_trim (ns : List Node) : ∃ xs ys, ns = xs ++ (trim ns ++ ys) ∧
    (∀ n ∈ xs, n.isBlank = true) ∧ ∀ n ∈ ys, n.isBlank = true := by
  obtain ⟨ys, hys, hblank, -⟩ := exists_blank_end (ns.dropWhile isBlank)
  refine ⟨ns.takeWhile isBlank, ys, ?_, ?_, hblank⟩
  · rw [trim, ← hys, List.takeWhile_append_dropWhile]
  · intro n hn
    exact List.all_eq_true.1 List.all_takeWhile n hn

theorem head_trim (ns : List Node) : ∀ n ∈ (trim ns).head?, n.isBlank = false := by
  intro n hn
  obtain ⟨ys, hys, -⟩ := exists_blank_end (ns.dropWhile isBlank)
  have hd : (ns.dropWhile isBlank).head? = some n := by
    rw [hys, List.head?_append, ← trim, Option.mem_def.1 hn]
    rfl
  have hnot := List.head?_dropWhile_not isBlank ns
  rw [hd] at hnot
  exact hnot

theorem last_trim (ns : List Node) : ∀ n ∈ (trim ns).getLast?, n.isBlank = false := by
  obtain ⟨-, -, -, h⟩ := exists_blank_end (ns.dropWhile isBlank)
  exact h

theorem trim_cons (h : n.isBlank = false) (ns : List Node) :
    trim (n :: ns) = n :: ns.rdropWhile isBlank := by
  rw [trim, List.dropWhile_cons_of_neg (by simp [h]), List.rdropWhile, List.reverse_cons,
    List.dropWhile_append, List.rdropWhile]
  split
  · rename_i he
    simp [List.isEmpty_iff.1 he, h]
  · simp

theorem mem_of_mem_trim (h : n ∈ trim ns) : n ∈ ns := by
  obtain ⟨xs, ys, hns, -⟩ := exists_trim ns
  rw [hns]
  simp [h]

/-- The first token of nodes that do not start with white space. -/
private theorem head_not_whitespace (h : AllFit b ns) (hs : ∀ n ∈ ns.head?, n.isBlank = false) :
    ∀ t ∈ (allTokens ns).head?, t.kind ≠ .whitespace := by
  cases ns with
  | nil => simp [allTokens]
  | cons n ns =>
    have hn := hs n rfl
    obtain ⟨hf, -⟩ := h
    cases n with
    | leaf t =>
      rintro u ⟨⟩
      exact of_decide_eq_false hn
    | block opener inner closer =>
      obtain ⟨c, t, ho, -⟩ := hf
      rintro u ⟨⟩ hw
      simp [hw, Kind.opens?] at ho

/-- The last token of nodes that do not end with white space. -/
private theorem last_not_whitespace (h : AllFit b ns) (hs : ∀ n ∈ ns.getLast?, n.isBlank = false) :
    ∀ t ∈ (allTokens ns).getLast?, t.kind ≠ .whitespace ∧ t.kind.opens? = none := by
  rcases ns.eq_nil_or_concat with rfl | ⟨ns, n, rfl⟩
  · simp [allTokens]
  · rw [List.concat_eq_append] at h hs ⊢
    have hn := hs n (by simp)
    have hf : n.Fits b := allFit_iff.1 h n (by simp)
    rw [allTokens_append]
    cases n with
    | leaf t =>
      intro u hu
      obtain rfl : t = u := by simpa [allTokens, tokens] using hu
      exact ⟨of_decide_eq_false hn, hf.1⟩
    | block opener inner closer =>
      obtain ⟨c, t, -, rfl, hc, -⟩ := hf
      intro u hu
      have hlast : (allTokens ns ++ (opener :: (allTokens inner ++ [t]))).getLast? = some t := by
        simp [List.getLast?_cons]
      obtain rfl : t = u := by
        simpa [allTokens, tokens, hlast] using hu
      cases hk : t.kind <;> simp_all [Kind.closes?, Kind.opens?]

end Node

/-! ## Collapsed sources -/

/-- The tokens of nodes are read again from their collapsed source, but for the white space around
them, and with the white space inside of them squeezed. -/
theorem reads_collapse (h : Node.Written b ns) (hk : Stops k) :
    Reads ((allTokens (Node.trim ns)).map Token.squeeze) k ∧
      sourceOf ((allTokens (Node.trim ns)).map Token.squeeze) =
        (Text.collapse (Node.source ns)).toList := by
  obtain ⟨xs, ys, hns, hxs, hys⟩ := Node.exists_trim ns
  have hsplit : Node.Written b (xs ++ (Node.trim ns ++ ys)) := hns ▸ h
  have hx : Blanks (Node.source xs) := by
    obtain ⟨k, -, hr⟩ := hsplit.left.reads
    exact Node.blanks_of_isBlank hxs hr
  have hy : Blanks (Node.source ys) := by
    obtain ⟨k, -, hr⟩ := hsplit.right.right.reads
    exact Node.blanks_of_isBlank hys hr
  have hcollapse : Text.collapse (Node.source ns) = Text.collapse (Node.source (Node.trim ns)) := by
    have hsource := congrArg Node.source hns
    rw [Node.source_append, Node.source_append] at hsource
    rw [hsource, Text.collapse_append_of_isSpace hx.isSpace, Text.collapse_append_isSpace hy.isSpace]
  have hcore : Node.Written b (Node.trim ns) := hsplit.part
  obtain ⟨k₀, hbk, hr⟩ := hcore.reads
  have hlast := Node.last_not_whitespace hcore.fit (Node.last_trim ns)
  have hstart := hr.startsSolid hcore.closed hcore.regular
    (Node.head_not_whitespace hcore.fit (Node.head_trim ns))
  have hend := hr.endsSolid hcore.closed hcore.regular fun t ht => (hlast t ht).1
  obtain ⟨hreads, hsource⟩ := hr.squeeze hcore.closed hcore.regular hbk ⟨[], k₀, k, rfl, rfl, hk⟩
    (fun t ht hw => absurd hw (hlast t ht).1) fun t ht => (hlast t ht).2
  refine ⟨hreads, ?_⟩
  rw [hsource, hcollapse, ← Text.toList_collapse hstart hend]
  rfl

/-- The collapsed source of nodes spells these nodes again, without the white space around them. -/
theorem spells_collapse (h : Node.Written b ns) :
    Spells b Stops (Text.collapse (Node.source ns)).toList
      ((Node.trim ns).map Node.squeezed) := by
  obtain ⟨xs, ys, hns, -⟩ := Node.exists_trim ns
  have hcore : Node.Written b (Node.trim ns) := by
    have hsplit : Node.Written b (xs ++ (Node.trim ns ++ ys)) := hns ▸ h
    exact hsplit.part
  have hreads (k : List Char) (hk : Stops k) :
      Reads (allTokens ((Node.trim ns).map (Node.mapTokens Token.squeeze))) k := by
    rw [Node.allTokens_map]
    exact (reads_collapse h hk).1
  have hsource : Node.source ((Node.trim ns).map (Node.mapTokens Token.squeeze)) =
      (Text.collapse (Node.source ns)).toList := by
    rw [Node.source_eq, Node.allTokens_map]
    exact (reads_collapse h stops_nil).2
  have hspells := Spells.of_reads hreads (hcore.fit.map keepsBrackets_squeeze)
  rwa [hsource, List.map_map] at hspells

/-- Nodes that are more than white space have a source that is more than white space. -/
theorem collapse_ne (h : Node.Written b ns) (hne : Node.trim ns ≠ []) :
    Text.collapse (Node.source ns) ≠ "" := by
  intro he
  have hnil : Stops [] := stops_nil
  obtain ⟨hreads, hsource⟩ := reads_collapse h hnil
  rw [he] at hsource
  obtain ⟨n, rest, hn⟩ := List.exists_cons_of_ne_nil hne
  obtain ⟨t, ts, ht⟩ : ∃ t ts, allTokens (Node.trim ns) = t :: ts := by
    rw [hn, allTokens]
    cases n with
    | leaf t => exact ⟨t, _, rfl⟩
    | block opener inner closer => exact ⟨opener, _, rfl⟩
  rw [ht] at hreads hsource
  obtain ⟨c, cs, hc, -⟩ := hreads.1
  simp [sourceOf_cons, hc] at hsource

/-- A token without white space starts with a character that is not blank. -/
theorem solid_token (h : Node.Written b [.leaf t]) (hl : t.kind.isLocal = true) :
    ∃ a u, t.source = a :: u ∧ isBlank a = false := by
  obtain ⟨k₀, -, ht, -⟩ := h.reads
  have hsource : Node.source [.leaf t] = t.source := by simp [Node.source_cons, Node.tokens]
  have hsolid := ht.solid_of_isLocal (hsource ▸ h.regular) hl
  obtain ⟨a, u, ha, -⟩ := ht
  refine ⟨a, u, ha, ?_⟩
  have hspace := hsolid a (by simp [ha])
  rw [← Bool.not_eq_true] at hspace ⊢
  exact fun hb => hspace (isSpace_of_isBlank hb)

/-- A token without white space is not changed when its source is collapsed. -/
theorem toList_collapse_token (h : Node.Written b [.leaf t]) (hl : t.kind.isLocal = true) :
    (Text.collapse (Node.source [.leaf t])).toList = t.source := by
  obtain ⟨k₀, -, ht, -⟩ := h.reads
  have hsource : Node.source [.leaf t] = t.source := by simp [Node.source_cons, Node.tokens]
  have hsolid := ht.solid_of_isLocal (hsource ▸ h.regular) hl
  rw [hsource, Text.toList_collapse, Text.squeeze_of_solid hsolid]
  · intro c hc
    exact hsolid c (List.mem_of_mem_head? hc)
  · intro c hc
    exact hsolid c (List.mem_of_mem_getLast? hc)

theorem spells_token (h : Node.Written b [.leaf t]) (hl : t.kind.isLocal = true) :
    Spells b Stops t.source [.leaf t.unlined] := by
  have hspells := spells_collapse h
  have hblank : (Node.leaf t).isBlank = false := by
    cases hk : t.kind <;> simp_all [Kind.isLocal, Node.isBlank, Node.isLeaf, Node.isBlock, Node.kind,
      Node.first]
  have hsqueeze : (Node.leaf t).squeezed = .leaf ⟨t.kind, Text.squeeze t.source, 0⟩ := by
    rw [Node.squeezed, Node.mapTokens, Node.unlined_leaf, Token.squeeze, Kind.squeeze_of_isLocal hl]
    rfl
  have htrim : Node.trim [.leaf t] = [.leaf t] := by simp [Node.trim, List.rdropWhile, hblank]
  rw [toList_collapse_token h hl, htrim, List.map_singleton, hsqueeze] at hspells
  have hsource := hspells.source
  simp only [Node.source_cons, Node.tokens, sourceOf_cons, sourceOf_nil, Node.source_nil,
    List.append_nil] at hsource
  rwa [hsource] at hspells

end SheetDiff.Css
