import SheetDiff.Proofs.Css.Enclosed
import SheetDiff.Proofs.Css.Reads

/-!
# Sources of tokens

What a token of a given kind is written as: strings, comments and addresses between their delimiters
(`ReadsOne.string`, `ReadsOne.comment`, `ReadsOne.url`), addresses and functions of that name behind
`url` and a bracket (`ReadsOne.urlName`). Closed strings, comments and addresses are read from their
sources whatever follows (`readsOne_string`, `readsOne_comment`, `readsOne_url`).
-/

namespace SheetDiff.Css

variable {c : Char} {cs k k' : List Char} {t : Token}

/-! ## Closed tokens -/

/-- A token with its closing delimiter, if its kind has one, that is not broken. -/
def Token.IsClosed (t : Token) : Prop :=
  match t.kind with
  | .string _ => 2 ≤ t.source.length ∧ t.source.getLast? = t.source.head?
  | .comment _ => 4 ≤ t.source.length ∧ ['*', '/'] <:+ t.source
  | .url _ => t.source.getLast? = some ')'
  | .badString _ | .badUrl _ => False
  | _ => True

/-- `Token.IsClosed` as a test. -/
def Token.isClosed (t : Token) : Bool :=
  match t.kind with
  | .string _ => 2 ≤ t.source.length && t.source.getLast? = t.source.head?
  | .comment _ => 4 ≤ t.source.length && ['*', '/'].isSuffixOf t.source
  | .url _ => t.source.getLast? = some ')'
  | .badString _ | .badUrl _ => false
  | _ => true

theorem Token.isClosed_iff : t.isClosed = true ↔ t.IsClosed := by
  obtain ⟨kind, source, line⟩ := t
  cases kind <;> simp [isClosed, IsClosed]

instance : DecidablePred Token.IsClosed := fun _ => decidable_of_iff _ Token.isClosed_iff

theorem isSpace_of_isBlank (h : isBlank c = true) : Text.isSpace c = true := by
  simp only [isBlank, isNewline, Bool.or_eq_true, decide_eq_true_eq] at h
  rcases h with (rfl | rfl) | (rfl | rfl) | rfl <;> decide

theorem isStop_of_isBlank (h : isBlank c = true) : isStop c = true := by
  simp [isStop, h]

/-! ## Kinds of first tokens -/

private theorem scan_whitespace (h : (scan c cs).1 = .whitespace) : isBlank c = true := by
  have hi := isNamed_identLike (c :: cs)
  have hn := isNumeric_numeric (c :: cs)
  rcases scan_cases c with ⟨hb, -⟩ | ⟨-, hs⟩ | ⟨-, hs⟩ | hs | hs
  · exact hb
  · rw [hs] at h
    split at h <;> simp at h
  · rw [hs, beyond] at h
    simp only at h
    rw [h] at hi
    simp [Kind.isNamed] at hi
  · rw [hs, beyond] at h
    simp only at h
    rw [h] at hn
    simp [Kind.isNumeric] at hn
  · exact absurd (hs cs ▸ h) (symbol_ne c cs).1

theorem scan_string {text : String} (h : (scan c cs).1 = .string text) :
    (c = '"' ∨ c = '\'') ∧ quoted c cs = ((text.toList, true), (scan c cs).2) := by
  have hi := isNamed_identLike (c :: cs)
  have hn := isNumeric_numeric (c :: cs)
  rcases scan_cases c with ⟨-, hs⟩ | ⟨hq, hs⟩ | ⟨-, hs⟩ | hs | hs
  · simp [hs] at h
  · refine ⟨hq, ?_⟩
    rw [hs] at h ⊢
    generalize quoted c cs = found at h ⊢
    obtain ⟨⟨chars, whole⟩, n⟩ := found
    cases whole with
    | true =>
      obtain rfl : String.ofList chars = text := by simpa using h
      simp
    | false => simp at h
  · rw [hs, beyond] at h
    simp only at h
    rw [h] at hi
    simp [Kind.isNamed] at hi
  · rw [hs, beyond] at h
    simp only at h
    rw [h] at hn
    simp [Kind.isNumeric] at hn
  · exact absurd (hs cs ▸ h) ((symbol_ne c cs).2 text)

/-- A comment starts with its opening delimiter. -/
theorem scan_comment {text : String} (h : (scan c cs).1 = .comment text) :
    ∃ ds, c = '/' ∧ cs = '*' :: ds ∧ comment ds = (text.toList, (scan c cs).2 - 1) ∧
      0 < (scan c cs).2 := by
  have hs := scan_eq_symbol (by rw [h]; rfl)
  rw [hs] at h ⊢
  obtain ⟨rfl, hst⟩ := symbol_comment h
  cases cs with
  | nil => simp [startsWith] at hst
  | cons d ds =>
    obtain rfl : d = '*' := by simpa [startsWith] using hst
    refine ⟨ds, rfl, rfl, ?_⟩
    have hsym : symbol '/' ('*' :: ds) =
        (.comment (String.ofList (comment ds).1), (comment ds).2 + 1) := by
      simp [symbol, startsWith]
    rw [hsym] at h ⊢
    obtain rfl : String.ofList (comment ds).1 = text := by simpa using h
    simp

theorem scan_comma (k : List Char) : scan ',' k = (.comma, 0) := by
  simp [scan, symbol, isBlank, isNewline, isNameStart, isNonAscii]

theorem scan_colon (k : List Char) : scan ':' k = (.colon, 0) := by
  simp [scan, symbol, isBlank, isNewline, isNameStart, isNonAscii]

theorem scan_semicolon (k : List Char) : scan ';' k = (.semicolon, 0) := by
  simp [scan, symbol, isBlank, isNewline, isNameStart, isNonAscii]

theorem scan_openBrace (k : List Char) : scan '{' k = (.opening .curly, 0) := by
  simp [scan, symbol, isBlank, isNewline, isNameStart, isNonAscii]

theorem scan_closeBrace (k : List Char) : scan '}' k = (.closing .curly, 0) := by
  simp [scan, symbol, isBlank, isNewline, isNameStart, isNonAscii]

/-! ## Names of addresses -/

/-- Without escapes a name is its longest run of name characters. -/
theorem name_eq (h : '\\' ∉ cs) :
    name cs = ((cs.takeWhile isNameChar).map denoted, (cs.takeWhile isNameChar).length) := by
  induction cs with
  | nil => simp [name]
  | cons c cs ih =>
    obtain ⟨hc, h⟩ : c ≠ '\\' ∧ '\\' ∉ cs := by simpa [eq_comm] using h
    rw [name, List.takeWhile_cons]
    by_cases hn : isNameChar c = true
    · simp [hn, ih h]
    · simp [hn, hc]

/-- A name that ends inside of a text without escapes is its longest run of name characters. -/
private theorem name_before {w k : List Char} (h : '\\' ∉ w) (hn : (name (w ++ k)).2 < w.length) :
    name (w ++ k) = ((w.takeWhile isNameChar).map denoted, (w.takeWhile isNameChar).length) := by
  induction w with
  | nil => simp at hn
  | cons c w ih =>
    obtain ⟨hc, h⟩ : c ≠ '\\' ∧ '\\' ∉ w := by simpa [eq_comm] using h
    rw [List.cons_append, List.takeWhile_cons]
    by_cases hnc : isNameChar c = true
    · rw [List.cons_append, name_cons_of_isNameChar hnc, List.length_cons,
        Nat.add_lt_add_iff_right] at hn
      rw [name_cons_of_isNameChar hnc, ih h hn, if_pos hnc]
      rfl
    · rw [name_of_not (by simpa using hnc) fun hb => absurd hb hc, if_neg hnc]
      rfl

private theorem name_open {m : List Char} (h : ∀ c ∈ m, isNameChar c = true) (k : List Char) :
    name (m ++ '(' :: k) = (m.map denoted, m.length) := by
  induction m with
  | nil => simp [name, isNameChar, isNameStart, isNonAscii]
  | cons c m ih =>
    rw [List.cons_append, name, if_pos (h c (by simp)), ih fun d hd => h d (by simp [hd])]
    rfl

/-- The characters of the name that starts an address, in upper or lower case. -/
structure UrlName (m : List Char) : Prop where
  chars : ∀ c ∈ m, isNameChar c = true
  lower : (String.ofList (m.map denoted)).toLower = "url"

private theorem UrlName.exists_cons {m : List Char} (h : UrlName m) :
    ∃ c m', m = c :: m' ∧ isNameStart c = true := by
  have hl : (String.map Char.toLower (String.ofList (m.map denoted))).toList = "url".toList :=
    congrArg String.toList h.lower
  rw [String.toList_map, String.toList_ofList] at hl
  cases m with
  | nil => simp at hl
  | cons c m =>
    refine ⟨c, m, rfl, ?_⟩
    have hu : (denoted c).toLower = 'u' := by
      simp only [List.map_cons] at hl
      exact (List.cons.inj hl).1
    have hnul : c ≠ '\x00' := by
      rintro rfl
      exact absurd hu (by decide)
    rw [denoted, if_neg hnul] at hu
    delta Char.toLower at hu
    split at hu
    · rename_i hup
      have hc : c.isUpper = true := by
        delta Char.isUpper
        simpa using hup
      have ha : c.isAlpha = true := by
        delta Char.isAlpha
        simp [hc]
      simp [isNameStart, ha]
    · subst hu
      decide

/-- What follows the name of an address and its bracket decides how they are read. -/
theorem scan_urlName {m : List Char} (h : UrlName (c :: m)) (k : List Char) :
    scan c (m ++ '(' :: k) = match unquotedUrl? k with
      | some (kind, n) => (kind, m.length + 1 + n)
      | none => (.function (String.ofList ((c :: m).map denoted)), m.length + 1) := by
  obtain ⟨d, m', hm, hs⟩ := h.exists_cons
  obtain ⟨rfl, rfl⟩ := List.cons.inj hm
  have hn : name (c :: (m ++ '(' :: k)) = ((c :: m).map denoted, (c :: m).length) :=
    name_open h.chars k
  have hd : (c :: (m ++ '(' :: k)).drop (c :: m).length = '(' :: k := by simp
  have hd' : (c :: (m ++ '(' :: k)).drop ((c :: m).length + 1) = k := by simp
  rw [scan_of_isNameStart hs, beyond, identLike, hn]
  simp only [hd, hd', startsWith, List.head?_cons, Option.any_some, decide_true, if_true, h.lower]
  cases unquotedUrl? k with
  | none => simp
  | some r =>
    simp only [List.length_cons]
    congr 1
    omega

theorem unquotedUrl?_kind {k : List Char} {kind : Kind} {n : Nat}
    (h : unquotedUrl? k = some (kind, n)) : ∃ s, kind = .url s ∨ kind = .badUrl s := by
  unfold unquotedUrl? at h
  simp only at h
  split at h
  · simp at h
  · split at h
    · exact ⟨_, .inl (Prod.mk.inj (Option.some.inj h)).1.symm⟩
    · exact ⟨_, .inr (Prod.mk.inj (Option.some.inj h)).1.symm⟩

/-- The kinds of an address, spoilt or not, and of the function that takes an address as a string. -/
def Kind.isUrl : Kind → Bool
  | .url _ | .badUrl _ => true
  | .function name => name.toLower = "url"
  | _ => false

private theorem Kind.isNamed_of_isUrl {k : Kind} (h : k.isUrl = true) : k.isNamed = true := by
  cases k <;> simp_all [Kind.isNamed, Kind.isUrl]

/-- A name is read where a character of names or a backslash stands. -/
theorem scan_isNamed (h : (scan c cs).1.isNamed = true) :
    scan c cs = beyond (identLike (c :: cs)) ∧ (isNameChar c = true ∨ c = '\\') := by
  have hn := isNumeric_numeric (c :: cs)
  rcases scan_cases c with ⟨-, hs⟩ | ⟨-, hs⟩ | ⟨hc, hs⟩ | hs | hs
  · simp [hs, Kind.isNamed] at h
  · rw [hs] at h
    simp only at h
    split at h <;> simp [Kind.isNamed] at h
  · exact ⟨hs cs, .inl (by simp [isNameChar, hc])⟩
  · have hk : (scan c cs).1 = (numeric (c :: cs)).1 := by rw [hs, beyond]
    rw [hk] at h
    cases hnk : (numeric (c :: cs)).1 <;> simp_all [Kind.isNumeric, Kind.isNamed]
  · rw [hs] at h ⊢
    obtain ⟨hid, hc⟩ := symbol_isNamed h
    refine ⟨hid, hc.imp_left ?_⟩
    rintro rfl
    decide

private theorem scan_isUrl {w k : List Char} (hb : '\\' ∉ c :: w)
    (hl : (scan c (w ++ k)).2 ≤ w.length) (h : (scan c (w ++ k)).1.isUrl = true) :
    ∃ m y, w ++ k = m ++ '(' :: y ∧ UrlName (c :: m) := by
  have hid := (scan_isNamed (Kind.isNamed_of_isUrl h)).1
  rw [hid] at hl h
  have hle := beyond_le hl
  have hopen : startsWith (· = '(') ((c :: (w ++ k)).drop (name (c :: (w ++ k))).2) = true := by
    rw [← Bool.not_eq_false]
    intro hno
    rw [beyond, identLike_eq, if_neg (by simp [hno])] at h
    simp [Kind.isUrl] at h
  have hlt : (name (c :: (w ++ k))).2 < (c :: w).length :=
    Nat.lt_of_succ_le (Nat.le_trans (open_le hopen) hle)
  have hname := name_before (w := c :: w) hb hlt
  rw [List.cons_append] at hname
  have hsplit := List.takeWhile_append_dropWhile (p := isNameChar) (l := c :: w)
  have hchars : ∀ d ∈ (c :: w).takeWhile isNameChar, isNameChar d = true :=
    List.all_eq_true.1 List.all_takeWhile
  rw [hname] at hlt
  rw [beyond, identLike_eq, if_pos hopen, hname] at h
  rw [hname, ← List.cons_append, List.drop_append_of_le_length (Nat.le_of_lt hlt),
    drop_length_takeWhile] at hopen
  generalize (c :: w).takeWhile isNameChar = nm at h hsplit hchars
  generalize (c :: w).dropWhile isNameChar = rest at hopen hsplit
  have hlow : (String.ofList (nm.map denoted)).toLower = "url" := by
    simp only at h
    split at h
    · assumption
    · simpa [Kind.isUrl] using h
  have hu : UrlName nm := ⟨hchars, hlow⟩
  obtain ⟨d, m, rfl, -⟩ := hu.exists_cons
  obtain ⟨y, hy⟩ : ∃ y, rest ++ k = '(' :: y := by
    cases hr : rest ++ k with
    | nil => simp [hr, startsWith] at hopen
    | cons e y =>
      obtain rfl : e = '(' := by simpa [hr, startsWith] using hopen
      exact ⟨y, rfl⟩
  obtain ⟨rfl, hw⟩ : d = c ∧ m ++ rest = w := List.cons.inj hsplit
  exact ⟨m, y, by rw [← hy, ← hw, List.append_assoc], hu⟩

/-! ## What follows the name of an address -/

/-- A text is split behind the blanks at its start. -/
theorem blanks_split (cs : List Char) : ∃ b w, cs = b ++ w ∧ Blanks b ∧
    ∀ c ∈ w.head?, isBlank c = false := by
  refine ⟨cs.takeWhile isBlank, cs.dropWhile isBlank, List.takeWhile_append_dropWhile.symm,
    List.all_eq_true.1 List.all_takeWhile, fun c hc => ?_⟩
  have hn := List.head?_dropWhile_not isBlank cs
  simpa [Option.mem_def.1 hc] using hn

theorem dropWhile_blanks {b : List Char} (hb : Blanks b) (hc : isBlank c = false)
    (k : List Char) : (b ++ c :: k).dropWhile isBlank = c :: k := by
  rw [List.dropWhile_append_of_pos hb]
  simp [hc]

/-- Whether a string follows shows at the first character that is not blank. -/
theorem unquotedUrl?_eq_none {b : List Char} (hb : Blanks b) (hc : isBlank c = false)
    (k : List Char) : unquotedUrl? (b ++ c :: k) = none ↔ c = '"' ∨ c = '\'' := by
  unfold unquotedUrl?
  simp only [drop_length_takeWhile, dropWhile_blanks hb hc]
  split
  · rename_i hq
    simpa [startsWith] using hq
  · rename_i hq
    have hne : ¬ (c = '"' ∨ c = '\'') := by simpa [startsWith] using hq
    split <;> simp [hne]

/-! ## Sources of tokens -/

theorem ReadsOne.source_ne (h : ReadsOne t k) : t.source ≠ [] := by
  obtain ⟨c, cs, hc, -⟩ := h
  simp [hc]

theorem ReadsOne.whitespace (h : ReadsOne t k) (hk : t.kind = .whitespace) :
    Blanks t.source ∧ ∀ c ∈ k.head?, isBlank c = false := by
  obtain ⟨c, cs, hc, hs⟩ := h
  have hb : isBlank c = true := scan_whitespace ((congrArg Prod.fst hs).trans hk)
  rw [scan, if_pos hb] at hs
  have hl : ((cs ++ k).takeWhile isBlank).length = cs.length := (Prod.mk.inj hs).2
  have ht : (cs ++ k).takeWhile isBlank = cs := by
    have hp := List.prefix_iff_eq_take.1 (List.takeWhile_prefix (l := cs ++ k) isBlank)
    rwa [hl, List.take_left] at hp
  have hd := List.head?_dropWhile_not isBlank (cs ++ k)
  rw [← drop_length_takeWhile, hl, List.drop_left] at hd
  refine ⟨fun d hd => ?_, fun d hkd => ?_⟩
  · rw [hc] at hd
    rcases List.mem_cons.1 hd with rfl | hd
    · exact hb
    · rw [← ht] at hd
      exact List.all_eq_true.1 List.all_takeWhile d hd
  · rw [Option.mem_def.1 hkd] at hd
    simpa using hd

theorem ReadsOne.string {text : String} (h : ReadsOne t k) (hk : t.kind = .string text)
    (hc : t.IsClosed) (hb : '\\' ∉ t.source) :
    ∃ q body, (q = '"' ∨ q = '\'') ∧ t.source = q :: (body ++ [q]) ∧ QuotedChars q body ∧
      text = String.ofList (body.map denoted) := by
  obtain ⟨q, cs, hsrc, hs⟩ := h
  obtain ⟨hq, hquoted⟩ := scan_string ((congrArg Prod.fst hs).trans hk)
  rw [hs] at hquoted
  simp only [Token.IsClosed, hk, hsrc] at hc
  obtain ⟨hl, hlast⟩ := hc
  have hcs : cs.getLast? = some q := by
    cases cs with
    | nil => simp at hl
    | cons d ds => simpa [List.getLast?_cons_cons] using hlast
  have hb : '\\' ∉ cs := fun hm => hb (by simp [hsrc, hm])
  obtain ⟨body, rfl, hbody, htext⟩ := quoted_closed hb hcs hquoted
  exact ⟨q, body, hq, hsrc, hbody, by rw [← htext, String.ofList_toList]⟩

theorem ReadsOne.comment {text : String} (h : ReadsOne t k) (hk : t.kind = .comment text)
    (hc : t.IsClosed) : t.source = '/' :: '*' :: (text.toList ++ ['*', '/']) ∧
      ¬ ClosesComment text.toList := by
  obtain ⟨c, cs, hsrc, hs⟩ := h
  obtain ⟨ds, rfl, hds, hcomment, -⟩ := scan_comment ((congrArg Prod.fst hs).trans hk)
  rw [hs] at hcomment
  simp only [Token.IsClosed, hk, hsrc] at hc
  obtain ⟨hl, hlast⟩ := hc
  cases cs with
  | nil => simp at hl
  | cons d w =>
    obtain ⟨rfl, rfl⟩ := List.cons.inj hds
    have hw : ['*', '/'] <:+ w := by
      refine List.suffix_of_suffix_length_le hlast (List.suffix_append ['/', '*'] w) ?_
      simpa using hl
    have hlen : w.length = ('*' :: w).length - 1 := by simp
    rw [← hlen] at hcomment
    obtain ⟨rfl, hno⟩ := comment_closed hw hcomment
    exact ⟨hsrc, hno⟩

/-- The source of an address or of a function of that name, up to the bracket behind the name. -/
theorem ReadsOne.urlName (h : ReadsOne t k) (hk : t.kind.isUrl = true)
    (hb : '\\' ∉ t.source) : ∃ c m v, t.source = c :: (m ++ '(' :: v) ∧
      UrlName (c :: m) ∧ match unquotedUrl? (v ++ k) with
      | some (kind, n) => t.kind = kind ∧ v.length = n
      | none => t.kind = .function (String.ofList ((c :: m).map denoted)) ∧ v = [] := by
  obtain ⟨c, cs, hsrc, hs⟩ := h
  have hl : (scan c (cs ++ k)).2 ≤ cs.length := by simp [hs]
  obtain ⟨m, y, hcs, hm⟩ := scan_isUrl (hsrc ▸ hb) hl (by rw [hs]; exact hk)
  rw [hcs, scan_urlName hm] at hs
  have hlen : m.length + 1 ≤ cs.length := by
    cases hu : unquotedUrl? y with
    | none =>
      simp only [hu, Prod.mk.injEq] at hs
      omega
    | some r =>
      simp only [hu, Prod.mk.injEq] at hs
      omega
  obtain ⟨v, rfl, rfl⟩ : ∃ v, cs = m ++ '(' :: v ∧ y = v ++ k := by
    have h1 : cs ++ k = (m ++ ['(']) ++ y := by simpa using hcs
    obtain ⟨v, rfl⟩ := List.prefix_of_prefix_length_le ⟨y, h1.symm⟩ (List.prefix_append cs k)
      (by simpa using hlen)
    rw [List.append_assoc] at h1
    exact ⟨v, by simp, (List.append_cancel_left h1).symm⟩
  refine ⟨c, m, v, hsrc, hm, ?_⟩
  cases hu : unquotedUrl? (v ++ k) with
  | none =>
    simp only [hu, Prod.mk.injEq, List.length_append, List.length_cons] at hs ⊢
    exact ⟨hs.1.symm, List.eq_nil_of_length_eq_zero (by omega)⟩
  | some r =>
    simp only [hu, Prod.mk.injEq, List.length_append, List.length_cons] at hs ⊢
    exact ⟨hs.1.symm, by omega⟩

theorem Kind.isUrl_cases {k : Kind} (h : k.isUrl = true) : (∃ s, k = .url s) ∨
    (∃ s, k = .badUrl s) ∨ ∃ name, k = .function name ∧ name.toLower = "url" := by
  cases k with
  | url s => exact .inl ⟨s, rfl⟩
  | badUrl s => exact .inr (.inl ⟨s, rfl⟩)
  | function name => exact .inr (.inr ⟨name, rfl, by simpa [Kind.isUrl] using h⟩)
  | _ => simp [Kind.isUrl] at h

theorem ReadsOne.url {text : String} (h : ReadsOne t k) (hk : t.kind = .url text)
    (hc : t.IsClosed) (hb : '\\' ∉ t.source) : ∃ c m b₁ body b₂,
      t.source = c :: (m ++ '(' :: (b₁ ++ (body ++ (b₂ ++ [')'])))) ∧ UrlName (c :: m) ∧
        Address b₁ body b₂ ∧ text = String.ofList (body.map denoted) := by
  obtain ⟨c, m, v, hsrc, hm, hv⟩ := h.urlName (by rw [hk]; rfl) hb
  simp only [Token.IsClosed, hk] at hc
  have hbv : '\\' ∉ v := fun hm => hb (by simp [hsrc, hm])
  cases hu : unquotedUrl? (v ++ k) with
  | none =>
    rw [hu] at hv
    exact absurd (hk.symm.trans hv.1) (by simp)
  | some r =>
    obtain ⟨kind, n⟩ := r
    simp only [hu] at hv
    obtain ⟨hkind, rfl⟩ := hv
    obtain rfl : kind = .url text := hkind.symm.trans hk
    have hlast : v.getLast? = some ')' := by
      cases v with
      | nil => simp [hsrc, List.getLast?_cons] at hc
      | cons d v => simpa [hsrc, List.getLast?_cons] using hc
    obtain ⟨b₁, body, b₂, rfl, ha, ht⟩ := unquotedUrl?_closed hbv hlast hu
    exact ⟨c, m, b₁, body, b₂, hsrc, hm, ha, ht⟩

theorem ReadsOne.urlFunction {name : String} (h : ReadsOne t k) (hk : t.kind = .function name)
    (hu : (Kind.function name).isUrl = true) (hb : '\\' ∉ t.source) : ∃ c m,
      t.source = c :: (m ++ ['(']) ∧ UrlName (c :: m) ∧
        name = String.ofList ((c :: m).map denoted) ∧ unquotedUrl? k = none := by
  obtain ⟨c, m, v, hsrc, hm, hv⟩ := h.urlName (by rw [hk]; exact hu) hb
  cases hq : unquotedUrl? (v ++ k) with
  | none =>
    simp only [hq] at hv
    obtain ⟨hkind, rfl⟩ := hv
    exact ⟨c, m, hsrc, hm, Kind.function.inj (hk.symm.trans hkind), by simpa using hq⟩
  | some r =>
    obtain ⟨kind, n⟩ := r
    simp only [hq] at hv
    have hkind := hv.1.symm.trans hk
    obtain ⟨s, rfl | rfl⟩ := unquotedUrl?_kind hq <;> cases hkind

/-- The kinds of tokens that are not broken strings. -/
theorem Kind.cases {k : Kind} (h : ∀ s, k ≠ .badString s) : k.isLocal = true ∨ k = .whitespace ∨
    (∃ s, k = .string s) ∨ (∃ s, k = .comment s) ∨ k.isUrl = true := by
  cases k with
  | function name =>
    by_cases hu : name.toLower = "url"
    · exact .inr (.inr (.inr (.inr (by simpa [Kind.isUrl] using hu))))
    · exact .inl (by simpa [Kind.isLocal] using hu)
  | whitespace => exact .inr (.inl rfl)
  | string s => exact .inr (.inr (.inl ⟨s, rfl⟩))
  | comment s => exact .inr (.inr (.inr (.inl ⟨s, rfl⟩)))
  | url s => exact .inr (.inr (.inr (.inr rfl)))
  | badUrl s => exact .inr (.inr (.inr (.inr rfl)))
  | badString s => exact absurd rfl (h s)
  | _ => exact .inl rfl

theorem Token.IsClosed.ne_badString (h : t.IsClosed) : ∀ s, t.kind ≠ .badString s := by
  intro s hk
  simp [Token.IsClosed, hk] at h

/-! ## Closed tokens anywhere -/

theorem readsOne_string {q : Char} (hq : q = '"' ∨ q = '\'') {body : List Char}
    (hbody : QuotedChars q body) (line : Nat) (k : List Char) :
    ReadsOne ⟨.string (String.ofList (body.map denoted)), q :: (body ++ [q]), line⟩ k := by
  refine ⟨q, body ++ [q], rfl, ?_⟩
  have hb : isBlank q ≠ true := by
    rcases hq with rfl | rfl <;> decide
  have hquoted := quoted_enclosed hbody k
  rw [scan, if_neg hb, if_pos hq, List.append_assoc, List.singleton_append, hquoted]
  simp

theorem readsOne_comment {body : List Char} (h : ¬ ClosesComment body) (line : Nat)
    (k : List Char) :
    ReadsOne ⟨.comment (String.ofList body), '/' :: '*' :: (body ++ ['*', '/']), line⟩ k := by
  refine ⟨'/', '*' :: (body ++ ['*', '/']), rfl, ?_⟩
  have hcomment := comment_enclosed h k
  have hs (cs : List Char) : scan '/' ('*' :: cs) =
      (.comment (String.ofList (comment cs).1), (comment cs).2 + 1) := by
    simp [scan, symbol, isBlank, isNewline, isNameStart, isNonAscii, startsWith]
  rw [List.cons_append, hs, List.append_assoc, List.cons_append, List.singleton_append, hcomment]
  simp

theorem readsOne_url {c : Char} {m b₁ body b₂ : List Char} (hm : UrlName (c :: m))
    (ha : Address b₁ body b₂) (line : Nat) (k : List Char) :
    ReadsOne ⟨.url (String.ofList (body.map denoted)),
      c :: (m ++ '(' :: (b₁ ++ (body ++ (b₂ ++ [')'])))), line⟩ k := by
  refine ⟨c, _, rfl, ?_⟩
  have hu := unquotedUrl?_enclosed ha k
  have happ : m ++ '(' :: (b₁ ++ (body ++ (b₂ ++ [')']))) ++ k =
      m ++ '(' :: (b₁ ++ (body ++ (b₂ ++ ')' :: k))) := by simp
  rw [happ, scan_urlName hm, hu]
  simp only [List.length_append, List.length_cons, List.length_nil, Prod.mk.injEq, true_and]
  omega

/-! ## Names -/

theorem map_denoted {body : List Char} (h : '\x00' ∉ body) : body.map denoted = body := by
  induction body with
  | nil => rfl
  | cons c body ih =>
    obtain ⟨hc, h⟩ : c ≠ '\x00' ∧ '\x00' ∉ body := by simpa [eq_comm] using h
    rw [List.map_cons, denoted, if_neg hc, ih h]

private theorem takeWhile_of_length {p : Char → Bool} {w : List Char}
    (h : ((w ++ k).takeWhile p).length = w.length) : (w ++ k).takeWhile p = w := by
  have hp := List.prefix_iff_eq_take.1 (List.takeWhile_prefix (l := w ++ k) p)
  rwa [h, List.take_left] at hp

/-- Without escapes and NUL a name is written as it is. -/
theorem ReadsOne.ident {text : String} (h : ReadsOne t k) (hk : t.kind = .ident text)
    (hb : '\\' ∉ t.source ++ k) (hn : '\x00' ∉ t.source) : t.source = text.toList := by
  obtain ⟨c, cs, hsrc, hs⟩ := h
  rw [hsrc, List.cons_append] at hb
  rw [hsrc] at hn ⊢
  have hnamed : (scan c (cs ++ k)).1.isNamed = true := by rw [hs, hk]; rfl
  obtain ⟨hid, hc⟩ := scan_isNamed hnamed
  have hc : isNameChar c = true := hc.resolve_right fun he => hb (by simp [he])
  rw [hid, beyond, identLike, name_eq hb, hk] at hs
  simp only at hs
  have hne : ((c :: (cs ++ k)).takeWhile isNameChar).length ≠ 0 := by simp [hc]
  generalize hnm : (c :: (cs ++ k)).takeWhile isNameChar = nm at hs hne
  split at hs
  · split at hs
    · split at hs
      · rename_i kind n hu
        obtain ⟨hkind, -⟩ := Prod.mk.inj hs
        subst hkind
        obtain ⟨s, hs | hs⟩ := unquotedUrl?_kind hu <;> cases hs
      · simp at hs
    · simp at hs
  · obtain ⟨hkind, hlen⟩ := Prod.mk.inj hs
    have hnm' : nm = c :: cs := by
      rw [← hnm, ← List.cons_append]
      apply takeWhile_of_length
      rw [List.cons_append, hnm]
      simp only at hlen
      simp
      omega
    rw [hnm', map_denoted hn] at hkind
    rw [← Kind.ident.inj hkind, String.toList_ofList]

theorem ReadsOne.atKeyword {text : String} (h : ReadsOne t k) (hk : t.kind = .atKeyword text)
    (hb : '\\' ∉ t.source ++ k) (hn : '\x00' ∉ t.source) : t.source = '@' :: text.toList := by
  obtain ⟨c, cs, hsrc, hs⟩ := h
  have hplain : (scan c (cs ++ k)).1.isPlain = false := by rw [hs, hk]; rfl
  have hsym := scan_eq_symbol hplain
  obtain ⟨rfl, hi⟩ := symbol_atKeyword (by rw [← hsym, hs, hk])
  rw [hsrc] at hb hn ⊢
  simp only [List.cons_append, List.mem_cons, not_or] at hb hn
  rw [hsym, symbol, if_pos hi, named, name_eq hb.2, hk] at hs
  obtain ⟨hkind, hlen⟩ := Prod.mk.inj hs
  rw [takeWhile_of_length hlen, map_denoted hn.2] at hkind
  rw [← Kind.atKeyword.inj hkind, String.toList_ofList]

/-! ## Symbols -/

/-- The character of a kind of tokens that are written with one character only. -/
def Kind.symbol? : Kind → Option Char
  | .opening .round => some '('
  | .closing .round => some ')'
  | .opening .square => some '['
  | .closing .square => some ']'
  | .opening .curly => some '\x7b'
  | .closing .curly => some '\x7d'
  | .comma => some ','
  | .colon => some ':'
  | .semicolon => some ';'
  | _ => none

private theorem symbol_symbol? {d : Char} (h : (symbol c cs).1.symbol? = some d) :
    c = d ∧ (symbol c cs).2 = 0 := by
  have hi := isPlain_identLike (c :: cs)
  have hn := isPlain_numeric (c :: cs)
  have hplain {k : Kind} (hk : k.isPlain = true) : k.symbol? = none := by
    cases k <;> simp_all [Kind.isPlain, Kind.isNamed, Kind.isNumeric, Kind.symbol?]
  unfold symbol at h ⊢
  split at h
  all_goals repeat' split at h
  all_goals simp_all [named, beyond, Kind.symbol?]
  all_goals exact h

/-- A symbol is written as such. -/
theorem ReadsOne.symbol {d : Char} (h : ReadsOne t k) (hd : t.kind.symbol? = some d) :
    t.source = [d] := by
  obtain ⟨c, cs, hsrc, hs⟩ := h
  have hk : (scan c (cs ++ k)).1.symbol? = some d := by rw [hs, hd]
  have hplain : (scan c (cs ++ k)).1.isPlain = false := by
    cases hp : (scan c (cs ++ k)).1 <;> simp_all [Kind.symbol?, Kind.isPlain, Kind.isNamed,
      Kind.isNumeric]
  rw [scan_eq_symbol hplain] at hk hs
  obtain ⟨rfl, hn⟩ := symbol_symbol? hk
  have hl : cs.length = 0 := by rw [← hn, hs]
  rw [hsrc, List.eq_nil_of_length_eq_zero hl]

end SheetDiff.Css
