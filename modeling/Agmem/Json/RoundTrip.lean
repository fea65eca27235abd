import Agmem.Json.Value

/-! What was printed is read back: a printed value is read as itself wherever it stands, and the
text behind it is left alone. -/

namespace Agmem.Json

variable {text rest : Chars}

/-! ### Strings -/

theorem hexValue_hexDigit : ∀ n < 16, hexValue (hexDigit n) = some n := by decide

theorem lookup_short : ∀ entry ∈ short, short.lookup entry.1 = some entry.2 ∧ entry.1 ≠ 'u' ∧
    entry.1 ≠ '/' := by decide

theorem readEscape_short {entry : Char × Char} (h : entry ∈ short) (text : Chars) :
    readEscape (entry.1 :: text) = some (entry.2, text) := by
  obtain ⟨hlookup, hu, hslash⟩ := lookup_short entry h
  rw [readEscape, if_neg hu, if_neg hslash, hlookup]
  rfl

/-- A control character in its long form. -/
theorem readUnicode_control {n : ℕ} (hn : n < 32) (text : Chars) :
    readUnicode ('0' :: '0' :: hexDigit (n / 16) :: hexDigit (n % 16) :: text) =
      some (Char.ofNat n, text) := by
  have hhigh := hexValue_hexDigit (n / 16) (by omega)
  have hlow := hexValue_hexDigit (n % 16) (by omega)
  have hzero : hexValue '0' = some 0 := by decide
  have hvalue : ((0 * 16 + 0) * 16 + n / 16) * 16 + n % 16 = n := by omega
  have hlead : isLeading n = false := decide_eq_false (by omega)
  have htrail : isTrailing n = false := decide_eq_false (by omega)
  simp only [readUnicode, readHex, hhigh, hlow, hzero, hvalue, hlead, htrail, Bool.false_eq_true,
    if_false]

/-- A character is read from its escape. -/
theorem readString_escape (fuel : ℕ) (c : Char) (text : Chars) :
    readString (fuel + 1) (escape c ++ text) =
      (readString fuel text).map fun read => (c :: read.1, read.2) := by
  have hslash : backslash ≠ quote := by decide
  unfold escape
  split
  · next entry hentry =>
    have hc : entry.2 = c := by simpa using List.find?_some hentry
    have hread := readEscape_short (List.mem_of_find?_eq_some hentry) text
    rw [List.cons_append, List.singleton_append, readString, if_neg hslash, if_pos rfl, hread, hc]
  · next hnone =>
    have hquote : c ≠ quote := fun h => absurd hnone (by rw [h]; decide)
    have hback : c ≠ backslash := fun h => absurd hnone (by rw [h]; decide)
    split_ifs with hcontrol
    · have hread := readUnicode_control hcontrol text
      rw [Char.ofNat_toNat] at hread
      simp only [List.cons_append, List.nil_append]
      rw [readString, if_neg hslash, if_pos rfl, readEscape, if_pos rfl, hread]
    · rw [List.singleton_append, readString, if_neg hquote, if_neg hback, if_neg hcontrol]

theorem readString_print {fuel : ℕ} (h : text.length < fuel) (rest : Chars) :
    readString fuel (text.flatMap escape ++ quote :: rest) = some (text, rest) := by
  induction text generalizing fuel with
  | nil =>
    obtain ⟨fuel, rfl⟩ := Nat.exists_eq_succ_of_ne_zero (by omega : fuel ≠ 0)
    simp [readString]
  | cons c text ih =>
    rw [List.length_cons] at h
    obtain ⟨fuel, rfl⟩ := Nat.exists_eq_succ_of_ne_zero (by omega : fuel ≠ 0)
    rw [List.flatMap_cons, List.append_assoc, readString_escape, ih (by omega)]
    rfl

theorem length_le_printString (text : Chars) : text.length + 2 ≤ (printString text).length := by
  have hescape (c : Char) : 1 ≤ (escape c).length := by
    unfold escape
    split
    · exact Nat.le_add_left 1 1
    · split_ifs <;> simp
  have hflat : text.length ≤ (text.flatMap escape).length := by
    induction text with
    | nil => exact le_rfl
    | cons c text ih =>
      rw [List.flatMap_cons, List.length_append, List.length_cons]
      have := hescape c
      omega
  simp only [printString, List.length_cons, List.length_append, List.length_nil]
  omega

/-! ### Values -/

mutual

/-- How many arrays and objects are inside each other. -/
def depth : Json → ℕ
  | .arr elements => depthElements elements + 1
  | .obj members => depthMembers members + 1
  | _ => 0

def depthElements : List Json → ℕ
  | [] => 0
  | v :: elements => max (depth v) (depthElements elements)

def depthMembers : List (Chars × Json) → ℕ
  | [] => 0
  | (_, v) :: members => max (depth v) (depthMembers members)

end

/-- The first character of a token. -/
structure Opens (c : Char) : Prop where
  notSpace : isSpace c = false
  notBracket : c ≠ ']'
  notBrace : c ≠ rightBrace

theorem Number.head (n : Number) : ∃ c cs, n.text = c :: cs ∧ (c = '-' ∨ c.isDigit = true) := by
  have hr := n.reads
  unfold readNumber at hr
  cases hint : readInt (readMinus n.text).2 with
  | none => simp [hint] at hr
  | some int =>
    obtain ⟨c, cs, -, hhead, hc⟩ := readInt_head hint
    cases htext : n.text with
    | nil => simp [htext, readMinus] at hhead
    | cons d ds =>
      refine ⟨d, ds, rfl, ?_⟩
      by_cases hd : d = '-'
      · exact .inl hd
      · rw [htext, readMinus, if_neg hd] at hhead
        cases hhead
        exact .inr hc

theorem opens_of_number {c : Char} (h : c = '-' ∨ c.isDigit = true) : Opens c ∧ c ≠ quote ∧
    c ≠ '[' ∧ c ≠ leftBrace ∧ c ≠ 'n' ∧ c ≠ 't' ∧ c ≠ 'f' := by
  have hne : ∀ d : Char, d ≠ '-' → d.isDigit = false → c ≠ d := by
    rintro d hminus hdigit rfl
    rcases h with h | h
    · exact hminus h
    · rw [h] at hdigit
      cases hdigit
  have hspace : isSpace c = false := by
    refine decide_eq_false ?_
    rintro (h | h | h | h) <;> exact hne _ (by decide) (by decide) h
  exact ⟨⟨hspace, hne _ (by decide) (by decide), hne _ (by decide) (by decide)⟩,
    hne _ (by decide) (by decide), hne _ (by decide) (by decide), hne _ (by decide) (by decide),
    hne _ (by decide) (by decide), hne _ (by decide) (by decide), hne _ (by decide) (by decide)⟩

theorem print_head (v : Json) : ∃ c cs, print v = c :: cs ∧ Opens c := by
  cases v with
  | null => exact ⟨_, _, by rw [print], by decide, by decide, by decide⟩
  | bool b => cases b <;> exact ⟨_, _, by rw [print], by decide, by decide, by decide⟩
  | num n =>
    obtain ⟨c, cs, hcs, hc⟩ := n.head
    exact ⟨c, cs, by rw [print, hcs], (opens_of_number hc).1⟩
  | str text =>
    exact ⟨_, _, by rw [print, printString, List.cons_append], by decide, by decide, by decide⟩
  | arr elements => exact ⟨_, _, by rw [print, List.cons_append], by decide, by decide, by decide⟩
  | obj members => exact ⟨_, _, by rw [print, List.cons_append], by decide, by decide, by decide⟩

theorem skip_of_opens {c : Char} (h : Opens c) (text : Chars) : skip (c :: text) = c :: text := by
  rw [skip, List.dropWhile_cons_of_neg (by simp [h.notSpace])]

/-- What stands behind a value inside an array or an object. -/
theorem stops_of_separator {c : Char} (h : c = ',' ∨ c = ']' ∨ c = rightBrace) (text : Chars) :
    Stops (c :: text) := by
  rcases h with rfl | rfl | rfl <;> exact stops_cons (by decide) (by decide)

theorem readValue_quote (fuel d : ℕ) (text : Chars) : readValue (fuel + 1) d (quote :: text) =
    (readString fuel text).map fun read => (.str read.1, read.2) := by
  rw [readValue, skip_of_opens ⟨by decide, by decide, by decide⟩]
  rfl

theorem readValue_null (fuel d : ℕ) (rest : Chars) :
    readValue (fuel + 1) d ('n' :: 'u' :: 'l' :: 'l' :: rest) = some (.null, rest) := by
  rw [readValue, skip_of_opens ⟨by decide, by decide, by decide⟩]
  rfl

theorem readValue_true (fuel d : ℕ) (rest : Chars) :
    readValue (fuel + 1) d ('t' :: 'r' :: 'u' :: 'e' :: rest) = some (.bool true, rest) := by
  rw [readValue, skip_of_opens ⟨by decide, by decide, by decide⟩]
  rfl

theorem readValue_false (fuel d : ℕ) (rest : Chars) :
    readValue (fuel + 1) d ('f' :: 'a' :: 'l' :: 's' :: 'e' :: rest) =
      some (.bool false, rest) := by
  rw [readValue, skip_of_opens ⟨by decide, by decide, by decide⟩]
  rfl

theorem readValue_nothing {fuel d : ℕ} (hd : 1 < d) (rest : Chars) :
    readValue (fuel + 1) d ('[' :: ']' :: rest) = some (.arr [], rest) ∧
      readValue (fuel + 1) d (leftBrace :: rightBrace :: rest) = some (.obj [], rest) := by
  have hdepth : ¬ d ≤ 1 := by omega
  constructor
  · rw [readValue, skip_of_opens ⟨by decide, by decide, by decide⟩]
    exact if_neg hdepth
  · rw [readValue, skip_of_opens ⟨by decide, by decide, by decide⟩]
    exact if_neg hdepth

theorem readValue_bracket {fuel d : ℕ} {c : Char} (hd : 1 < d) (h : Opens c) (text : Chars) :
    readValue (fuel + 1) d ('[' :: c :: text) =
      (readElements fuel (d - 1) (c :: text)).map fun read => (.arr read.1, read.2) := by
  have hquote : '[' ≠ quote := by decide
  rw [readValue, skip_of_opens ⟨by decide, by decide, by decide⟩]
  dsimp only
  rw [if_neg hquote, if_pos rfl, if_neg (by omega), skip_of_opens h]
  dsimp only
  rw [if_neg h.notBracket]

theorem readValue_brace {fuel d : ℕ} {c : Char} (hd : 1 < d) (h : Opens c) (text : Chars) :
    readValue (fuel + 1) d (leftBrace :: c :: text) =
      (readMembers fuel (d - 1) (c :: text)).map fun read => (.obj read.1, read.2) := by
  have hquote : leftBrace ≠ quote := by decide
  have hbracket : leftBrace ≠ '[' := by decide
  rw [readValue, skip_of_opens ⟨by decide, by decide, by decide⟩]
  dsimp only
  rw [if_neg hquote, if_neg hbracket, if_pos rfl, if_neg (by omega), skip_of_opens h]
  dsimp only
  rw [if_neg h.notBrace]

theorem readValue_number (n : Number) (fuel d : ℕ) (hs : Stops rest) :
    readValue (fuel + 1) d (n.text ++ rest) = some (.num n, rest) := by
  have hread := readNumber_append hs n.reads
  obtain ⟨c, cs, hcs, hc⟩ := n.head
  obtain ⟨hopens, hquote, hbracket, hbrace, hn, ht, hf⟩ := opens_of_number hc
  rw [hcs, List.cons_append] at hread
  rw [hcs, List.cons_append, readValue, skip_of_opens hopens]
  dsimp only
  rw [if_neg hquote, if_neg hbracket, if_neg hbrace, if_neg hn, if_neg ht, if_neg hf]
  split
  · next hnone => simp [hread] at hnone
  · next number after h =>
    rw [hread] at h
    cases h
    obtain ⟨text, reads⟩ := n
    cases hcs
    rfl

theorem printElements_head (v : Json) (elements : List Json) :
    ∃ c cs, printElements (v :: elements) = c :: cs ∧ Opens c := by
  obtain ⟨c, cs, hcs, hopens⟩ := print_head v
  cases elements with
  | nil => exact ⟨c, cs, hcs, hopens⟩
  | cons w elements =>
    have hprint : printElements (v :: w :: elements) =
      print v ++ ',' :: printElements (w :: elements) := rfl
    exact ⟨c, _, by rw [hprint, hcs, List.cons_append], hopens⟩

theorem printMembers_head (key : Chars) (v : Json) (members : List (Chars × Json)) :
    ∃ cs, printMembers ((key, v) :: members) = quote :: cs := by
  cases members with
  | nil => exact ⟨_, rfl⟩
  | cons member members => exact ⟨_, rfl⟩

mutual

/-- A printed value is read as itself, and the text behind it is left. -/
theorem readValue_print : ∀ (v : Json) (fuel d : ℕ) (rest : Chars), (print v).length ≤ fuel →
    depth v < d → Stops rest → readValue fuel d (print v ++ rest) = some (v, rest)
  | v, 0, d, rest, hfuel, hd, hs => by
    obtain ⟨c, cs, hcs, -⟩ := print_head v
    simp [hcs] at hfuel
  | .null, fuel + 1, d, rest, hfuel, hd, hs => readValue_null fuel d rest
  | .bool true, fuel + 1, d, rest, hfuel, hd, hs => readValue_true fuel d rest
  | .bool false, fuel + 1, d, rest, hfuel, hd, hs => readValue_false fuel d rest
  | .num n, fuel + 1, d, rest, hfuel, hd, hs => readValue_number n fuel d hs
  | .str text, fuel + 1, d, rest, hfuel, hd, hs => by
    have hlength := length_le_printString text
    rw [print] at hfuel ⊢
    have hread := readString_print (show text.length < fuel by omega) rest
    simp only [printString, List.cons_append, List.append_assoc, List.nil_append]
    rw [readValue_quote, hread]
    rfl
  | .arr [], fuel + 1, d, rest, hfuel, hd, hs => by
    rw [depth] at hd
    exact (readValue_nothing (by omega) rest).1
  | .arr (v :: elements), fuel + 1, d, rest, hfuel, hd, hs => by
    rw [depth] at hd
    simp only [print, List.cons_append, List.append_assoc, List.nil_append, List.length_cons,
      List.length_append, List.length_nil] at hfuel ⊢
    have hread := readElements_print v elements fuel (d - 1) rest (by omega) (by omega)
    obtain ⟨c, cs, hcs, hopens⟩ := printElements_head v elements
    rw [hcs, List.cons_append] at hread ⊢
    rw [readValue_bracket (by omega) hopens, hread]
    rfl
  | .obj [], fuel + 1, d, rest, hfuel, hd, hs => by
    rw [depth] at hd
    exact (readValue_nothing (by omega) rest).2
  | .obj ((key, v) :: members), fuel + 1, d, rest, hfuel, hd, hs => by
    rw [depth] at hd
    simp only [print, List.cons_append, List.append_assoc, List.nil_append, List.length_cons,
      List.length_append, List.length_nil] at hfuel ⊢
    have hread := readMembers_print key v members fuel (d - 1) rest (by omega) (by omega)
    obtain ⟨cs, hcs⟩ := printMembers_head key v members
    rw [hcs, List.cons_append] at hread ⊢
    rw [readValue_brace (by omega) ⟨by decide, by decide, by decide⟩, hread]
    rfl

theorem readElements_print : ∀ (v : Json) (elements : List Json) (fuel d : ℕ) (rest : Chars),
    (printElements (v :: elements)).length < fuel → depthElements (v :: elements) < d →
    readElements fuel d (printElements (v :: elements) ++ ']' :: rest) = some (v :: elements, rest)
  | v, _, 0, _, _, hfuel, _ => by cases hfuel
  | v, [], fuel + 1, d, rest, hfuel, hd => by
    simp only [depthElements] at hd
    rw [printElements] at hfuel ⊢
    have hread := readValue_print v fuel d (']' :: rest) (by omega) (by omega)
      (stops_of_separator (.inr (.inl rfl)) rest)
    rw [readElements, hread]
    rfl
  | v, w :: elements, fuel + 1, d, rest, hfuel, hd => by
    have hprint : printElements (v :: w :: elements) =
      print v ++ ',' :: printElements (w :: elements) := rfl
    rw [depthElements] at hd
    rw [hprint, List.length_append, List.length_cons] at hfuel
    have hread := readValue_print v fuel d (',' :: (printElements (w :: elements) ++ ']' :: rest))
      (by omega) (by omega) (stops_of_separator (.inl rfl) _)
    have hrest := readElements_print w elements fuel d rest (by omega) (by omega)
    rw [hprint, List.append_assoc, List.cons_append, readElements, hread]
    dsimp only
    rw [skip_of_opens ⟨by decide, by decide, by decide⟩]
    dsimp only
    rw [if_neg (by decide), if_pos rfl, hrest]
    rfl

theorem readMembers_print : ∀ (key : Chars) (v : Json) (members : List (Chars × Json)) (fuel d : ℕ)
    (rest : Chars), (printMembers ((key, v) :: members)).length < fuel →
    depthMembers ((key, v) :: members) < d →
    readMembers fuel d (printMembers ((key, v) :: members) ++ rightBrace :: rest) =
      some ((key, v) :: members, rest)
  | _, _, _, 0, _, _, hfuel, _ => by cases hfuel
  | key, v, [], fuel + 1, d, rest, hfuel, hd => by
    have hlength := length_le_printString key
    simp only [depthMembers] at hd
    rw [printMembers, List.length_append, List.length_cons] at hfuel
    have hkey := readString_print (show key.length < fuel by omega)
      (':' :: (print v ++ rightBrace :: rest))
    have hread := readValue_print v fuel d (rightBrace :: rest) (by omega) (by omega)
      (stops_of_separator (.inr (.inr rfl)) rest)
    simp only [printMembers, printString, List.cons_append, List.append_assoc, List.nil_append]
    rw [readMembers, skip_of_opens ⟨by decide, by decide, by decide⟩]
    dsimp only
    rw [if_pos rfl, hkey]
    dsimp only
    rw [skip_of_opens ⟨by decide, by decide, by decide⟩]
    dsimp only
    rw [if_pos rfl, hread]
    rfl
  | key, v, (key', w) :: members, fuel + 1, d, rest, hfuel, hd => by
    have hprint : printMembers ((key, v) :: (key', w) :: members) =
      printString key ++ ':' :: print v ++ ',' :: printMembers ((key', w) :: members) := rfl
    have hlength := length_le_printString key
    rw [depthMembers] at hd
    simp only [hprint, List.length_append, List.length_cons] at hfuel
    have hkey := readString_print (show key.length < fuel by omega)
      (':' :: (print v ++ ',' :: (printMembers ((key', w) :: members) ++ rightBrace :: rest)))
    have hread := readValue_print v fuel d
      (',' :: (printMembers ((key', w) :: members) ++ rightBrace :: rest)) (by omega) (by omega)
      (stops_of_separator (.inl rfl) _)
    have hrest := readMembers_print key' w members fuel d rest (by omega) (by omega)
    simp only [hprint, printString, List.cons_append, List.append_assoc, List.nil_append]
    rw [readMembers, skip_of_opens ⟨by decide, by decide, by decide⟩]
    dsimp only
    rw [if_pos rfl, hkey]
    dsimp only
    rw [skip_of_opens ⟨by decide, by decide, by decide⟩]
    dsimp only
    rw [if_pos rfl, hread]
    dsimp only
    rw [skip_of_opens ⟨by decide, by decide, by decide⟩]
    dsimp only
    rw [if_neg (by decide), if_pos rfl, hrest]
    rfl

end

theorem stops_of_blank (h : skip rest = []) : Stops rest := by
  intro c hc
  cases rest with
  | nil => cases hc
  | cons d rest =>
    cases hc
    have hspace : isSpace c = true := by
      by_contra hno
      rw [skip, List.dropWhile_cons_of_neg hno] at h
      cases h
    rcases of_decide_eq_true hspace with rfl | rfl | rfl | rfl <;> decide

/-- A value that is not too deep is read back from its text, whatever whitespace follows. -/
theorem parse_print {v : Json} (h : depth v < RECURSION_LIMIT) (hs : skip rest = []) :
    parse (print v ++ rest) = some v := by
  have hread := readValue_print v ((print v ++ rest).length + 1) RECURSION_LIMIT rest
    (by rw [List.length_append]; omega) h (stops_of_blank hs)
  rw [parse, hread]
  exact if_pos hs

/-! ### Lines -/

/-- A character that may stand in a line. -/
def Graphic (c : Char) : Prop := 32 ≤ c.toNat

instance : DecidablePred Graphic := fun c => inferInstanceAs (Decidable (32 ≤ c.toNat))

theorem graphic_of_isDigit {c : Char} (h : c.isDigit = true) : Graphic c := by
  simp only [Char.isDigit, Bool.and_eq_true, decide_eq_true_eq] at h
  have h48 : (48 : ℕ) ≤ c.toNat := h.1
  unfold Graphic
  omega

theorem graphic_nil : ∀ c ∈ ([] : Chars), Graphic c := fun _ hc => absurd hc List.not_mem_nil

theorem digits_graphic (text : Chars) : ∀ c ∈ (digits text).1, Graphic c := fun _ hc =>
  graphic_of_isDigit (isDigit_of_mem_digits hc)

theorem readMinus_graphic (text : Chars) : ∀ c ∈ (readMinus text).1, Graphic c := by
  cases text with
  | nil => exact graphic_nil
  | cons d text =>
    rw [readMinus]
    split_ifs with hd
    · exact List.forall_mem_singleton.mpr (hd ▸ by decide)
    · exact graphic_nil

theorem readSign_graphic (text : Chars) : ∀ c ∈ (readSign text).1, Graphic c := by
  cases text with
  | nil => exact graphic_nil
  | cons d text =>
    rw [readSign]
    split_ifs with hd
    · refine List.forall_mem_singleton.mpr ?_
      rcases hd with rfl | rfl <;> decide
    · exact graphic_nil

theorem readInt_graphic {int : Chars × Chars} (h : readInt text = some int) :
    ∀ c ∈ int.1, Graphic c := by
  unfold readInt at h
  split_ifs at h
  rw [← Option.some.inj h]
  exact digits_graphic text

theorem readFraction_graphic {fraction : Chars × Chars} (h : readFraction text = some fraction) :
    ∀ c ∈ fraction.1, Graphic c := by
  cases text with
  | nil =>
    cases h
    exact graphic_nil
  | cons d text =>
    rw [readFraction] at h
    split_ifs at h with hd
    · cases h
      exact List.forall_mem_cons.mpr ⟨hd ▸ by decide, digits_graphic text⟩
    · cases h
      exact graphic_nil

theorem readExponent_graphic {exponent : Chars × Chars} (h : readExponent text = some exponent) :
    ∀ c ∈ exponent.1, Graphic c := by
  cases text with
  | nil =>
    cases h
    exact graphic_nil
  | cons d text =>
    rw [readExponent] at h
    split_ifs at h with hd
    · cases h
      refine List.forall_mem_append.mpr
        ⟨List.forall_mem_cons.mpr ⟨?_, readSign_graphic text⟩, digits_graphic _⟩
      rcases hd with rfl | rfl <;> decide
    · cases h
      exact graphic_nil

theorem readNumber_graphic {number after : Chars} (h : readNumber text = some (number, after)) :
    ∀ c ∈ number, Graphic c := by
  obtain ⟨int, fraction, exponent, hint, hfraction, hexponent, rfl, -⟩ := readNumber_eq_some.mp h
  simp only [List.forall_mem_append]
  exact ⟨⟨⟨readMinus_graphic text, readInt_graphic hint⟩, readFraction_graphic hfraction⟩,
    readExponent_graphic hexponent⟩

theorem graphic_of_all {text : Chars} (h : text.all (fun c => decide (Graphic c)) = true) :
    ∀ c ∈ text, Graphic c := fun c hc => of_decide_eq_true (List.all_eq_true.mp h c hc)

theorem graphic_cons {c : Char} {text : Chars} (hc : Graphic c) (h : ∀ d ∈ text, Graphic d) :
    ∀ d ∈ c :: text, Graphic d := List.forall_mem_cons.mpr ⟨hc, h⟩

theorem graphic_append {text rest : Chars} (h : ∀ c ∈ text, Graphic c)
    (hr : ∀ c ∈ rest, Graphic c) : ∀ c ∈ text ++ rest, Graphic c :=
  List.forall_mem_append.mpr ⟨h, hr⟩

theorem printString_graphic (text : Chars) : ∀ c ∈ printString text, Graphic c := by
  have hescape (c : Char) : ∀ d ∈ escape c, Graphic d := by
    have hshort : ∀ entry ∈ short, Graphic entry.1 := by decide
    have hhex : ∀ n < 16, Graphic (hexDigit n) := by decide
    unfold escape
    split
    · next entry hentry =>
      have hmem := hshort entry (List.mem_of_find?_eq_some hentry)
      simpa using ⟨(by decide : Graphic backslash), hmem⟩
    · split_ifs with hc
      · have hhigh := hhex (c.toNat / 16) (by omega)
        have hlow := hhex (c.toNat % 16) (by omega)
        simpa [hhigh, hlow] using (by decide : Graphic backslash ∧ Graphic 'u' ∧ Graphic '0')
      · exact List.forall_mem_singleton.mpr (not_lt.mp hc)
  have hbody : ∀ d ∈ text.flatMap escape, Graphic d := by
    intro d hd
    obtain ⟨c, -, hd⟩ := List.mem_flatMap.mp hd
    exact hescape c d hd
  rw [printString]
  exact graphic_append (graphic_cons (by decide) hbody) (graphic_of_all (by decide))

mutual

/-- No control character is printed: the text of a value is part of one line. -/
theorem print_graphic : ∀ v : Json, ∀ c ∈ print v, Graphic c
  | .null => graphic_of_all (by decide)
  | .bool true => graphic_of_all (by decide)
  | .bool false => graphic_of_all (by decide)
  | .num n => readNumber_graphic n.reads
  | .str text => printString_graphic text
  | .arr elements => by
    have helements := printElements_graphic elements
    rw [print]
    exact graphic_append (graphic_cons (by decide) helements) (graphic_of_all (by decide))
  | .obj members => by
    have hmembers := printMembers_graphic members
    rw [print]
    exact graphic_append (graphic_cons (by decide) hmembers) (graphic_of_all (by decide))

theorem printElements_graphic : ∀ elements : List Json, ∀ c ∈ printElements elements, Graphic c
  | [] => graphic_of_all rfl
  | [v] => print_graphic v
  | v :: w :: elements => by
    have hv := print_graphic v
    have helements := printElements_graphic (w :: elements)
    exact graphic_append hv (graphic_cons (by decide) helements)

theorem printMembers_graphic :
    ∀ members : List (Chars × Json), ∀ c ∈ printMembers members, Graphic c
  | [] => graphic_of_all rfl
  | [(key, v)] => by
    have hv := print_graphic v
    exact graphic_append (printString_graphic key) (graphic_cons (by decide) hv)
  | (key, v) :: member :: members => by
    have hv := print_graphic v
    have hmembers := printMembers_graphic (member :: members)
    have hmember : ∀ c ∈ printString key ++ ':' :: print v, Graphic c :=
      graphic_append (printString_graphic key) (graphic_cons (by decide) hv)
    exact graphic_append hmember (graphic_cons (by decide) hmembers)

end

end Agmem.Json
