import ScopeAnalysis.Json.Reader

namespace ScopeAnalysis

namespace Json

def Blanks (cs : List Char) : Prop :=
  ∀ c ∈ cs, isBlank c = true

/-- At least one digit, and nothing else. -/
def Digits (cs : List Char) : Prop :=
  cs ≠ [] ∧ ∀ c ∈ cs, c.isDigit = true

/-- A whole number without superfluous zeros in front. -/
def Whole (cs : List Char) : Prop :=
  Digits cs ∧ (cs.head? = some '0' → cs = ['0'])

/-- A sign, a whole number, a fraction and an exponent; only the number has to be there. -/
inductive Numeral : List Char → Prop where
  | mk {minus whole fraction exponent : List Char} (hminus : minus = [] ∨ minus = ['-'])
      (hwhole : Whole whole) (hfraction : fraction = [] ∨ ∃ ds, Digits ds ∧ fraction = '.' :: ds)
      (hexponent : exponent = [] ∨ ∃ e sign ds, (e = 'e' ∨ e = 'E') ∧
        (sign = [] ∨ sign = ['+'] ∨ sign = ['-']) ∧ Digits ds ∧ exponent = e :: sign ++ ds) :
    Numeral (minus ++ whole ++ fraction ++ exponent)

/-- How one character may be written between quotes. -/
inductive WrittenChar : Char → List Char → Prop where
  | plain {c : Char} (hcontrol : 32 ≤ c.toNat) (hquote : c ≠ '"') (hescape : c ≠ '\\') :
    WrittenChar c [c]
  | escaped {c e : Char} (h : simpleEscape? e = some c) : WrittenChar c ['\\', e]
  | coded {c x₁ x₂ x₃ x₄ : Char} (h : unit? x₁ x₂ x₃ x₄ = some c.toNat) :
    WrittenChar c ['\\', 'u', x₁, x₂, x₃, x₄]

inductive WrittenChars : List Char → List Char → Prop where
  | nil : WrittenChars [] []
  | cons {c : Char} {text cs ds : List Char} (h : WrittenChar c cs) (hs : WrittenChars text ds) :
    WrittenChars (c :: text) (cs ++ ds)

/-- What a text can be written for: a value, the items of a list or the fields of an object. -/
inductive Phrase where
  | value (j : Json)
  | items (js : List Json)
  | fields (fs : List (String × Json))

/-- The phrase may be written as these characters. -/
inductive Written : Phrase → List Char → Prop where
  | null : Written (.value .null) ['n', 'u', 'l', 'l']
  | yes : Written (.value (.bool true)) ['t', 'r', 'u', 'e']
  | no : Written (.value (.bool false)) ['f', 'a', 'l', 's', 'e']
  | number {literal : String} (h : Numeral literal.toList) :
    Written (.value (.number literal)) literal.toList
  | string {text : String} {cs : List Char} (h : WrittenChars text.toList cs) :
    Written (.value (.string text)) ('"' :: (cs ++ ['"']))
  | emptyArray {b : List Char} (hb : Blanks b) : Written (.value (.array [])) ('[' :: (b ++ [']']))
  | array {js : List Json} {cs : List Char} (h : Written (.items js) cs) :
    Written (.value (.array js)) ('[' :: (cs ++ [']']))
  | emptyObject {b : List Char} (hb : Blanks b) :
    Written (.value (.object [])) ('\x7b' :: (b ++ ['\x7d']))
  | object {fs : List (String × Json)} {cs : List Char} (h : Written (.fields fs) cs) :
    Written (.value (.object fs)) ('\x7b' :: (cs ++ ['\x7d']))
  | item {j : Json} {b cs b' : List Char} (hb : Blanks b) (h : Written (.value j) cs)
      (hb' : Blanks b') : Written (.items [j]) (b ++ cs ++ b')
  | items {j : Json} {js : List Json} {b cs b' ds : List Char} (hb : Blanks b)
      (h : Written (.value j) cs) (hb' : Blanks b') (hs : Written (.items js) ds) :
    Written (.items (j :: js)) (b ++ cs ++ b' ++ ',' :: ds)
  | field {name : String} {j : Json} {b ns b₁ b₂ cs b' : List Char} (hb : Blanks b)
      (hname : WrittenChars name.toList ns) (hb₁ : Blanks b₁) (hb₂ : Blanks b₂)
      (h : Written (.value j) cs) (hb' : Blanks b') :
    Written (.fields [(name, j)]) (b ++ '"' :: (ns ++ '"' :: (b₁ ++ ':' :: (b₂ ++ cs ++ b'))))
  | fields {name : String} {j : Json} {fs : List (String × Json)} {b ns b₁ b₂ cs b' ds : List Char}
      (hb : Blanks b) (hname : WrittenChars name.toList ns) (hb₁ : Blanks b₁) (hb₂ : Blanks b₂)
      (h : Written (.value j) cs) (hb' : Blanks b') (hs : Written (.fields fs) ds) :
    Written (.fields ((name, j) :: fs))
      (b ++ '"' :: (ns ++ '"' :: (b₁ ++ ':' :: (b₂ ++ cs ++ b' ++ ',' :: ds))))

/-- The text holds one value, with blanks around it at most. -/
def IsText (text : String) (j : Json) : Prop :=
  ∃ b cs b', text.toList = b ++ cs ++ b' ∧ Blanks b ∧ Written (.value j) cs ∧ Blanks b'

theorem readUnits_char {c : Char} {cs : List Char} (h : WrittenChar c cs) (rest : List Char) :
    readUnits (cs ++ rest) =
      (readUnits rest).map fun (units, after) => (c.toNat :: units, after) := by
  cases h with
  | plain hcontrol hquote hescape =>
    rw [List.singleton_append, readUnits]
    · exact hquote
    · intro _ _ _ _ _ he
      exact absurd he hescape
    · intro _ _ he
      exact absurd he hescape
  | @escaped e he =>
    have hnot : e ≠ 'u' := by
      rintro rfl
      simp [simpleEscape?] at he
    rw [List.cons_append, List.singleton_append, readUnits]
    · rw [he]
      cases readUnits rest <;> rfl
    · intro _ _ _ _ _ hu
      exact absurd hu hnot
  | coded hunit =>
    simp only [List.cons_append, List.nil_append, readUnits, hunit]
    cases readUnits rest <;> rfl

theorem readUnits_chars {text cs : List Char} (h : WrittenChars text cs) (rest : List Char) :
    readUnits (cs ++ '"' :: rest) = some (text.map Char.toNat, rest) := by
  induction h with
  | nil => rfl
  | cons hc _ ih =>
    rw [List.append_assoc, readUnits_char hc, ih]
    rfl

theorem joinUnits_char (c : Char) (units : List Nat) :
    joinUnits (c.toNat :: units) = c :: joinUnits units := by
  have hvalid : ¬(0xD800 ≤ c.toNat ∧ c.toNat < 0xDC00) := by
    have hc := c.valid
    have he : c.toNat = c.val.toNat := rfl
    rcases hc with hlow | hhigh
    · have : c.val.toNat < 0xD800 := hlow
      omega
    · have : 0xDFFF < c.val.toNat := hhigh.1
      omega
  cases units with
  | nil => simp [joinUnits, Char.ofNat_toNat]
  | cons low rest =>
    rw [joinUnits, if_neg (fun h => hvalid ⟨h.1, h.2.1⟩), Char.ofNat_toNat]

theorem joinUnits_chars (text : List Char) : joinUnits (text.map Char.toNat) = text := by
  induction text with
  | nil => rfl
  | cons c text ih => rw [List.map_cons, joinUnits_char, ih]

theorem readString_written {text : String} {cs : List Char} (h : WrittenChars text.toList cs)
    (rest : List Char) : readString (cs ++ '"' :: rest) = some (text, rest) := by
  have hjoined : String.ofList (joinUnits (text.toList.map Char.toNat)) = text := by
    rw [joinUnits_chars, String.ofList_toList]
  simp only [readString, readUnits_chars h, Option.map_some, hjoined]

/-- The text does not go on with a character of a number. -/
def Stops (rest : List Char) : Prop :=
  ∀ c, rest.head? = some c → isNumberChar c = false

theorem Blanks.stops {b rest : List Char} (hb : Blanks b) (hrest : Stops rest) :
    Stops (b ++ rest) := by
  cases b with
  | nil => exact hrest
  | cons c b =>
    intro d hd
    cases Option.some.inj hd
    have hc := hb c (by simp)
    simp only [isBlank, Bool.or_eq_true, beq_iff_eq] at hc
    rcases hc with ((rfl | rfl) | rfl) | rfl <;> rfl

theorem Digits.numberChars {cs : List Char} (h : Digits cs) : ∀ c ∈ cs, isNumberChar c = true := by
  intro c hc
  simp [isNumberChar, h.2 c hc]

/-- A numeral consists of characters of numbers and starts with a sign or a digit. -/
theorem Numeral.chars {cs : List Char} (h : Numeral cs) :
    (∀ c ∈ cs, isNumberChar c = true) ∧ ∃ c rest, cs = c :: rest ∧ (c = '-' ∨ c.isDigit = true) := by
  obtain @⟨minus, whole, fraction, exponent, hminus, hwhole, hfraction, hexponent⟩ := h
  have hdigits := hwhole.1.numberChars
  refine ⟨?_, ?_⟩
  · have hm : ∀ c ∈ minus, isNumberChar c = true := by
      rcases hminus with rfl | rfl
      · simp
      · simp [isNumberChar]
    have hf : ∀ c ∈ fraction, isNumberChar c = true := by
      rcases hfraction with rfl | ⟨ds, hds, rfl⟩
      · simp
      · exact List.forall_mem_cons.mpr ⟨rfl, hds.numberChars⟩
    have he : ∀ c ∈ exponent, isNumberChar c = true := by
      rcases hexponent with rfl | ⟨e, sign, ds, he, hsign, hds, rfl⟩
      · simp
      · refine List.forall_mem_append.mpr ⟨List.forall_mem_cons.mpr ⟨?_, ?_⟩, hds.numberChars⟩
        · rcases he with rfl | rfl <;> rfl
        · rcases hsign with rfl | rfl | rfl <;> simp [isNumberChar]
    exact List.forall_mem_append.mpr
      ⟨List.forall_mem_append.mpr ⟨List.forall_mem_append.mpr ⟨hm, hdigits⟩, hf⟩, he⟩
  · rcases hminus with rfl | rfl
    · obtain ⟨hne, hall⟩ := hwhole.1
      obtain ⟨c, rest, rfl⟩ := List.exists_cons_of_ne_nil hne
      exact ⟨c, _, rfl, Or.inr (hall c (by simp))⟩
    · exact ⟨'-', _, rfl, Or.inl rfl⟩

theorem readNumber_written {cs rest : List Char} (h : Numeral cs) (hrest : Stops rest) :
    readNumber (cs ++ rest) = some (.number (String.ofList cs), rest) := by
  obtain ⟨hall, c, tail, rfl, _⟩ := h.chars
  have hnone : rest.takeWhile isNumberChar = [] ∧ rest.dropWhile isNumberChar = rest := by
    cases rest with
    | nil => exact ⟨rfl, rfl⟩
    | cons d rest =>
      have hd := hrest d rfl
      exact ⟨List.takeWhile_cons_of_neg (by simp [hd]), List.dropWhile_cons_of_neg (by simp [hd])⟩
  have htake : (c :: tail ++ rest).takeWhile isNumberChar = c :: tail := by
    rw [List.takeWhile_append_of_pos hall, hnone.1, List.append_nil]
  have hdrop : (c :: tail ++ rest).dropWhile isNumberChar = rest := by
    rw [List.dropWhile_append_of_pos hall, hnone.2]
  rw [readNumber, htake, hdrop]

theorem skipBlanks_append {b : List Char} (hb : Blanks b) (cs : List Char) :
    skipBlanks (b ++ cs) = skipBlanks cs :=
  List.dropWhile_append_of_pos hb

theorem skipBlanks_cons {c : Char} (hc : isBlank c = false) (cs : List Char) :
    skipBlanks (c :: cs) = c :: cs :=
  List.dropWhile_cons_of_neg (by simp [hc])

theorem readValue_append {b : List Char} (hb : Blanks b) (fuel : Nat) (cs : List Char) :
    readValue fuel (b ++ cs) = readValue fuel cs := by
  cases fuel with
  | zero => simp [readValue]
  | succ fuel => simp only [readValue, skipBlanks_append hb]

theorem digit_or_minus {c : Char} (h : c = '-' ∨ c.isDigit = true) :
    isBlank c = false ∧ c ≠ ']' ∧ c ≠ 'n' ∧ c ≠ 't' ∧ c ≠ 'f' ∧ c ≠ '"' ∧ c ≠ '[' ∧ c ≠ '\x7b' := by
  rcases h with rfl | h
  · decide
  · refine ⟨?_, ?_, ?_, ?_, ?_, ?_, ?_, ?_⟩
    · refine Bool.eq_false_iff.mpr fun hb => ?_
      simp only [isBlank, Bool.or_eq_true, beq_iff_eq] at hb
      rcases hb with ((rfl | rfl) | rfl) | rfl <;> revert h <;> decide
    all_goals
      rintro rfl
      revert h
      decide

/-- No value starts with a blank or a closing bracket. -/
theorem Written.head {j : Json} {cs : List Char} (h : Written (.value j) cs) :
    ∃ c rest, cs = c :: rest ∧ isBlank c = false ∧ c ≠ ']' := by
  cases h with
  | number hnumeral =>
    obtain ⟨_, c, rest, he, hc⟩ := hnumeral.chars
    have hfirst := digit_or_minus hc
    exact ⟨c, rest, he, hfirst.1, hfirst.2.1⟩
  | null | yes | no | string | emptyArray | array | emptyObject | object =>
    exact ⟨_, _, rfl, rfl, by decide⟩

/-- Items start with a value, after blanks. -/
theorem Written.itemsHead {js : List Json} {cs : List Char} (h : Written (.items js) cs) :
    ∃ b c rest, cs = b ++ c :: rest ∧ Blanks b ∧ isBlank c = false ∧ c ≠ ']' := by
  cases h with
  | @item j b cs b' hb hj _ =>
    obtain ⟨c, rest, rfl, hc⟩ := hj.head
    exact ⟨b, c, rest ++ b', by simp, hb, hc⟩
  | @items j js b cs b' ds hb hj _ _ =>
    obtain ⟨c, rest, rfl, hc⟩ := hj.head
    exact ⟨b, c, rest ++ (b' ++ ',' :: ds), by simp, hb, hc⟩

theorem Written.fieldsHead {fs : List (String × Json)} {cs : List Char}
    (h : Written (.fields fs) cs) : ∃ b rest, cs = b ++ '"' :: rest ∧ Blanks b := by
  cases h with
  | field hb | fields hb => exact ⟨_, _, rfl, hb⟩

/-- The reader finds the phrase in the text, whatever may follow. -/
def Phrase.Readable (cs : List Char) : Phrase → Prop
  | .value j => ∀ fuel rest, cs.length < fuel → Stops rest →
    readValue fuel (cs ++ rest) = some (j, rest)
  | .items js => ∀ fuel rest, cs.length + 1 < fuel →
    readItems fuel (cs ++ ']' :: rest) = some (js, rest)
  | .fields fs => ∀ fuel rest, cs.length + 1 < fuel →
    readFields fuel (cs ++ '\x7d' :: rest) = some (fs, rest)

theorem readValue_number {literal : String} {rest : List Char} (h : Numeral literal.toList)
    (hrest : Stops rest) (fuel : Nat) :
    readValue (fuel + 1) (literal.toList ++ rest) = some (.number literal, rest) := by
  have hread := readNumber_written h hrest
  rw [String.ofList_toList] at hread
  obtain ⟨_, c, tail, he, hc⟩ := h.chars
  obtain ⟨hblank, _, hn, ht, hf, hq, ha, ho⟩ := digit_or_minus hc
  rw [he, List.cons_append] at hread ⊢
  rw [readValue, skipBlanks_cons hblank]
  split <;> simp_all

theorem readValue_array {js : List Json} {cs : List Char} (h : Written (.items js) cs)
    (hread : (Phrase.items js).Readable cs) {fuel : Nat} (hfuel : cs.length + 1 < fuel)
    (rest : List Char) :
    readValue (fuel + 1) ('[' :: (cs ++ [']']) ++ rest) = some (.array js, rest) := by
  have htext : '[' :: (cs ++ [']']) ++ rest = '[' :: (cs ++ ']' :: rest) := by simp
  have hitems := hread fuel rest hfuel
  obtain ⟨b, c, tail, rfl, hb, hc, hclose⟩ := h.itemsHead
  have hskip : skipBlanks (b ++ c :: tail ++ ']' :: rest) = c :: (tail ++ ']' :: rest) := by
    rw [List.append_assoc, skipBlanks_append hb, List.cons_append, skipBlanks_cons hc]
  rw [htext, readValue, skipBlanks_cons (by rfl)]
  simp only [hskip]
  split
  next he => exact absurd (List.cons.inj he).1 hclose
  next =>
    rw [hitems]
    rfl

theorem readValue_object {fs : List (String × Json)} {cs : List Char} (h : Written (.fields fs) cs)
    (hread : (Phrase.fields fs).Readable cs) {fuel : Nat} (hfuel : cs.length + 1 < fuel)
    (rest : List Char) :
    readValue (fuel + 1) ('\x7b' :: (cs ++ ['\x7d']) ++ rest) = some (.object fs, rest) := by
  have htext : '\x7b' :: (cs ++ ['\x7d']) ++ rest = '\x7b' :: (cs ++ '\x7d' :: rest) := by simp
  have hfields := hread fuel rest hfuel
  obtain ⟨b, tail, rfl, hb⟩ := h.fieldsHead
  have hskip : skipBlanks (b ++ '"' :: tail ++ '\x7d' :: rest) = '"' :: (tail ++ '\x7d' :: rest) := by
    rw [List.append_assoc, skipBlanks_append hb, List.cons_append, skipBlanks_cons (by rfl)]
  rw [htext, readValue, skipBlanks_cons (by rfl)]
  simp only [hskip]
  rw [hfields]
  rfl

/-- A value among items or fields, with the blanks around it. -/
theorem readValue_between {j : Json} {b cs b' rest : List Char} {c : Char}
    (hread : (Phrase.value j).Readable cs) (hb : Blanks b) (hb' : Blanks b')
    (hc : isNumberChar c = false) {fuel : Nat} (hfuel : cs.length < fuel) :
    readValue fuel (b ++ cs ++ b' ++ c :: rest) = some (j, b' ++ c :: rest) := by
  have hstops : Stops (b' ++ c :: rest) := by
    refine hb'.stops ?_
    intro d hd
    cases Option.some.inj hd
    exact hc
  rw [List.append_assoc, List.append_assoc, readValue_append hb]
  exact hread fuel _ hfuel hstops

theorem skipBlanks_before {b rest : List Char} {c : Char} (hb : Blanks b) (hc : isBlank c = false) :
    skipBlanks (b ++ c :: rest) = c :: rest := by
  rw [skipBlanks_append hb, skipBlanks_cons hc]

theorem readItems_one {j : Json} {b cs b' : List Char} (hb : Blanks b) (hb' : Blanks b')
    (hread : (Phrase.value j).Readable cs) : (Phrase.items [j]).Readable (b ++ cs ++ b') := by
  intro fuel rest hfuel
  obtain ⟨fuel, rfl⟩ : ∃ n, fuel = n + 1 := ⟨fuel - 1, by omega⟩
  simp only [List.length_append] at hfuel
  have hvalue : readValue fuel (b ++ cs ++ b' ++ ']' :: rest) = some (j, b' ++ ']' :: rest) :=
    readValue_between hread hb hb' rfl (by omega)
  have hclose : skipBlanks (b' ++ ']' :: rest) = ']' :: rest := skipBlanks_before hb' rfl
  rw [readItems, hvalue]
  simp [hclose]

theorem readItems_more {j : Json} {js : List Json} {b cs b' ds : List Char} (hb : Blanks b)
    (hb' : Blanks b') (hread : (Phrase.value j).Readable cs)
    (hmore : (Phrase.items js).Readable ds) :
    (Phrase.items (j :: js)).Readable (b ++ cs ++ b' ++ ',' :: ds) := by
  intro fuel rest hfuel
  obtain ⟨fuel, rfl⟩ : ∃ n, fuel = n + 1 := ⟨fuel - 1, by omega⟩
  simp only [List.length_append, List.length_cons] at hfuel
  have htext : b ++ cs ++ b' ++ ',' :: ds ++ ']' :: rest =
      b ++ cs ++ b' ++ ',' :: (ds ++ ']' :: rest) := by simp
  have hvalue : readValue fuel (b ++ cs ++ b' ++ ',' :: (ds ++ ']' :: rest)) =
      some (j, b' ++ ',' :: (ds ++ ']' :: rest)) :=
    readValue_between hread hb hb' rfl (by omega)
  have hcomma : skipBlanks (b' ++ ',' :: (ds ++ ']' :: rest)) = ',' :: (ds ++ ']' :: rest) :=
    skipBlanks_before hb' rfl
  have hitems : readItems fuel (ds ++ ']' :: rest) = some (js, rest) := hmore fuel rest (by omega)
  rw [htext, readItems, hvalue]
  simp [hcomma, hitems]

section Fields

variable {name : String} {j : Json} {b ns b₁ b₂ cs b' : List Char} (hb : Blanks b)
  (hname : WrittenChars name.toList ns) (hb₁ : Blanks b₁) (hb₂ : Blanks b₂) (hb' : Blanks b')
  (hread : (Phrase.value j).Readable cs)

include hb hname hb₁ hb₂ hb' hread

/-- The name of a field and its colon are read, and then its value. -/
theorem readFields_value {rest : List Char} {c : Char} (hc : isNumberChar c = false)
    (hblank : isBlank c = false) {fuel : Nat} (hfuel : cs.length < fuel) :
    readFields (fuel + 1)
        (b ++ '"' :: (ns ++ '"' :: (b₁ ++ ':' :: (b₂ ++ cs ++ b' ++ c :: rest)))) =
      match c :: rest with
      | '\x7d' :: after => some ([(name, j)], after)
      | ',' :: after => (readFields fuel after).map fun (fs, after) => ((name, j) :: fs, after)
      | _ => none := by
  have hopen : skipBlanks (b ++ '"' :: (ns ++ '"' :: (b₁ ++ ':' :: (b₂ ++ cs ++ b' ++ c :: rest)))) =
      '"' :: (ns ++ '"' :: (b₁ ++ ':' :: (b₂ ++ cs ++ b' ++ c :: rest))) :=
    skipBlanks_before hb rfl
  have hcolon : skipBlanks (b₁ ++ ':' :: (b₂ ++ cs ++ b' ++ c :: rest)) =
      ':' :: (b₂ ++ cs ++ b' ++ c :: rest) := skipBlanks_before hb₁ rfl
  have hvalue : readValue fuel (b₂ ++ cs ++ b' ++ c :: rest) = some (j, b' ++ c :: rest) :=
    readValue_between hread hb₂ hb' hc hfuel
  have hafter : skipBlanks (b' ++ c :: rest) = c :: rest := skipBlanks_before hb' hblank
  rw [readFields, hopen]
  simp only [readString_written hname, Option.bind_eq_bind, Option.bind_some, hcolon, hvalue, hafter]
  by_cases hclose : c = '\x7d'
  · subst hclose
    rfl
  · by_cases hcomma : c = ','
    · subst hcomma
      cases hmore : readFields fuel rest <;> simp [hmore]
    · simp [hclose, hcomma]

theorem readFields_one : (Phrase.fields [(name, j)]).Readable
    (b ++ '"' :: (ns ++ '"' :: (b₁ ++ ':' :: (b₂ ++ cs ++ b')))) := by
  intro fuel rest hfuel
  obtain ⟨fuel, rfl⟩ : ∃ n, fuel = n + 1 := ⟨fuel - 1, by omega⟩
  simp only [List.length_append, List.length_cons] at hfuel
  have htext : b ++ '"' :: (ns ++ '"' :: (b₁ ++ ':' :: (b₂ ++ cs ++ b'))) ++ '\x7d' :: rest =
      b ++ '"' :: (ns ++ '"' :: (b₁ ++ ':' :: (b₂ ++ cs ++ b' ++ '\x7d' :: rest))) := by simp
  rw [htext, readFields_value hb hname hb₁ hb₂ hb' hread rfl rfl (by omega)]
  simp

theorem readFields_more {fs : List (String × Json)} {ds : List Char}
    (hmore : (Phrase.fields fs).Readable ds) : (Phrase.fields ((name, j) :: fs)).Readable
      (b ++ '"' :: (ns ++ '"' :: (b₁ ++ ':' :: (b₂ ++ cs ++ b' ++ ',' :: ds)))) := by
  intro fuel rest hfuel
  obtain ⟨fuel, rfl⟩ : ∃ n, fuel = n + 1 := ⟨fuel - 1, by omega⟩
  simp only [List.length_append, List.length_cons] at hfuel
  have htext :
      b ++ '"' :: (ns ++ '"' :: (b₁ ++ ':' :: (b₂ ++ cs ++ b' ++ ',' :: ds))) ++ '\x7d' :: rest =
        b ++ '"' :: (ns ++ '"' :: (b₁ ++ ':' ::
          (b₂ ++ cs ++ b' ++ ',' :: (ds ++ '\x7d' :: rest)))) := by simp
  have hfields : readFields fuel (ds ++ '\x7d' :: rest) = some (fs, rest) :=
    hmore fuel rest (by omega)
  rw [htext, readFields_value hb hname hb₁ hb₂ hb' hread rfl rfl (by omega)]
  simp [hfields]

end Fields

/-- The reader accepts all that the grammar allows. -/
theorem Written.readable {p : Phrase} {cs : List Char} (h : Written p cs) : p.Readable cs := by
  -- a value has fuel for its own text, items and fields for their text and the bracket behind it
  have hsucc : ∀ {n fuel : Nat}, n < fuel → ∃ m, fuel = m + 1 ∧ n ≤ m := by
    intro n fuel hfuel
    exact ⟨fuel - 1, by omega, by omega⟩
  induction h with
  | null | yes | no =>
    intro fuel rest hfuel _
    obtain ⟨fuel, rfl, _⟩ := hsucc hfuel
    rfl
  | number hnumeral =>
    intro fuel rest hfuel hrest
    obtain ⟨fuel, rfl, _⟩ := hsucc hfuel
    exact readValue_number hnumeral hrest fuel
  | @string text cs htext =>
    intro fuel rest hfuel _
    obtain ⟨fuel, rfl, _⟩ := hsucc hfuel
    have hsplit : '"' :: (cs ++ ['"']) ++ rest = '"' :: (cs ++ '"' :: rest) := by simp
    rw [hsplit, readValue, skipBlanks_cons (by rfl)]
    simp [readString_written htext]
  | @emptyArray b hb =>
    intro fuel rest hfuel _
    obtain ⟨fuel, rfl, _⟩ := hsucc hfuel
    have hsplit : '[' :: (b ++ [']']) ++ rest = '[' :: (b ++ ']' :: rest) := by simp
    have hclose : skipBlanks (b ++ ']' :: rest) = ']' :: rest := skipBlanks_before hb rfl
    rw [hsplit, readValue, skipBlanks_cons (by rfl)]
    simp [hclose]
  | @emptyObject b hb =>
    intro fuel rest hfuel _
    obtain ⟨fuel, rfl, _⟩ := hsucc hfuel
    have hsplit : '\x7b' :: (b ++ ['\x7d']) ++ rest = '\x7b' :: (b ++ '\x7d' :: rest) := by simp
    have hclose : skipBlanks (b ++ '\x7d' :: rest) = '\x7d' :: rest := skipBlanks_before hb rfl
    rw [hsplit, readValue, skipBlanks_cons (by rfl)]
    simp [hclose]
  | array hitems ih =>
    intro fuel rest hfuel _
    obtain ⟨fuel, rfl, hle⟩ := hsucc hfuel
    simp only [List.length_append, List.length_cons, List.length_nil] at hle
    exact readValue_array hitems ih (by omega) rest
  | object hfields ih =>
    intro fuel rest hfuel _
    obtain ⟨fuel, rfl, hle⟩ := hsucc hfuel
    simp only [List.length_append, List.length_cons, List.length_nil] at hle
    exact readValue_object hfields ih (by omega) rest
  | item hb _ hb' ih => exact readItems_one hb hb' ih
  | items hb _ hb' _ ih ihs => exact readItems_more hb hb' ih ihs
  | field hb hname hb₁ hb₂ _ hb' ih => exact readFields_one hb hname hb₁ hb₂ hb' ih
  | fields hb hname hb₁ hb₂ _ hb' _ ih ihs => exact readFields_more hb hname hb₁ hb₂ hb' ih ihs

theorem IsText.parse {text : String} {j : Json} (h : IsText text j) : parse? text = some j := by
  obtain ⟨b, cs, b', htext, hb, hj, hb'⟩ := h
  have hstops : Stops b' := by
    have hend : Stops [] := by simp [Stops]
    have hall := hb'.stops hend
    rwa [List.append_nil] at hall
  have hread := hj.readable (text.toList.length + 1) b' (by rw [htext]; simp; omega) hstops
  have hvalue : readValue (text.toList.length + 1) text.toList = some (j, b') := by
    rw [← hread, htext, List.append_assoc, readValue_append hb]
  have hrest : skipBlanks b' = [] := by
    have hall := skipBlanks_append hb' []
    rwa [List.append_nil] at hall
  simp [parse?, hvalue, hrest]

theorem hexValue?_hexDigit : ∀ n < 16, hexValue? (hexDigit n) = some n := by decide

theorem escapeChar_written (c : Char) : WrittenChar c (escapeChar c) := by
  have hcode : ∀ n : Nat, (c.toNat == n) = true → c = Char.ofNat n := by
    intro n hn
    rw [← beq_iff_eq.mp hn, Char.ofNat_toNat]
  fun_cases escapeChar c with
  | case1 h | case2 _ h | case3 _ _ h | case4 _ _ _ h | case5 _ _ _ _ h =>
    rw [beq_iff_eq.mp h]
    exact .escaped rfl
  | case6 _ _ _ _ _ h =>
    rw [hcode 8 h]
    exact .escaped rfl
  | case7 _ _ _ _ _ _ h =>
    rw [hcode 12 h]
    exact .escaped rfl
  | case8 _ _ _ _ _ _ _ hcontrol =>
    refine .coded ?_
    have hhigh := hexValue?_hexDigit (c.toNat / 16) (by omega)
    have hlow := hexValue?_hexDigit (c.toNat % 16) (by omega)
    have hzero : hexValue? '0' = some 0 := by decide
    simp only [unit?, hzero, hhigh, hlow, Option.pure_def, Option.bind_eq_bind, Option.bind_some,
      Option.some.injEq]
    omega
  | case9 hquote hescape _ _ _ _ _ hcontrol =>
    exact .plain (by omega) (by simpa using hquote) (by simpa using hescape)

mutual

/-- All numbers in the value are spelled as numerals. -/
def Numeric : Json → Prop
  | .null | .bool _ | .string _ => True
  | .number literal => Numeral literal.toList
  | .array items => NumericItems items
  | .object fields => NumericFields fields

def NumericItems : List Json → Prop
  | [] => True
  | j :: js => j.Numeric ∧ NumericItems js

def NumericFields : List (String × Json) → Prop
  | [] => True
  | (_, j) :: fs => j.Numeric ∧ NumericFields fs

end

theorem nil_blanks : Blanks [] := by simp [Blanks]

theorem space_blanks : Blanks [' '] := by simp [Blanks, isBlank]

theorem newline_blanks (depth : Nat) : Blanks (newline depth).toList := by
  intro c hc
  simp only [newline, String.toList_append, String.toList_ofList, List.mem_append,
    List.mem_replicate] at hc
  rcases hc with hc | ⟨_, rfl⟩
  · have hline : c = '\n' := by simpa using hc
    rw [hline]
    rfl
  · rfl

theorem quoted_toList (text : String) :
    (quoted text).toList = '"' :: (text.toList.flatMap escapeChar ++ ['"']) := by
  simp [quoted]

theorem escaped_written (text : List Char) : WrittenChars text (text.flatMap escapeChar) := by
  induction text with
  | nil => exact .nil
  | cons c text ih =>
    rw [List.flatMap_cons]
    exact .cons (escapeChar_written c) ih

mutual

theorem prettyAt_written (depth : Nat) :
    (j : Json) → j.Numeric → Written (.value j) (j.prettyAt depth).toList
  | .null, _ => by simpa [prettyAt] using Written.null
  | .bool true, _ => by simpa [prettyAt] using Written.yes
  | .bool false, _ => by simpa [prettyAt] using Written.no
  | .number _, h => .number h
  | .string text, _ => by
    rw [prettyAt, quoted_toList]
    exact .string (escaped_written text.toList)
  | .array [], _ => by simpa [prettyAt] using Written.emptyArray nil_blanks
  | .array (item :: rest), h => by
    have hitems := prettyItems_written (depth + 1) (item :: rest) (by simp) h
      (newline_blanks (depth + 1)) (newline_blanks depth)
    have htext : (prettyAt depth (.array (item :: rest))).toList =
        '[' :: ((newline (depth + 1)).toList ++ (prettyItems (depth + 1) (item :: rest)).toList ++
          (newline depth).toList ++ [']']) := by
      simp [prettyAt]
    rw [htext]
    exact .array hitems
  | .object [], _ => by simpa [prettyAt] using Written.emptyObject nil_blanks
  | .object (field :: rest), h => by
    have hfields := prettyFields_written (depth + 1) (field :: rest) (by simp) h
      (newline_blanks (depth + 1)) (newline_blanks depth)
    have htext : (prettyAt depth (.object (field :: rest))).toList =
        '\x7b' :: ((newline (depth + 1)).toList ++ (prettyFields (depth + 1) (field :: rest)).toList ++
          (newline depth).toList ++ ['\x7d']) := by
      simp [prettyAt]
    rw [htext]
    exact .object hfields

theorem prettyItems_written (depth : Nat) :
    (js : List Json) → js ≠ [] → NumericItems js → {b b' : List Char} → Blanks b → Blanks b' →
      Written (.items js) (b ++ (prettyItems depth js).toList ++ b')
  | [], hne, _, _, _, _, _ => absurd rfl hne
  | [item], _, h, _, _, hb, hb' => .item hb (prettyAt_written depth item h.1) hb'
  | item :: next :: rest, _, h, b, b', hb, hb' => by
    have hitem := prettyAt_written depth item h.1
    have hmore := prettyItems_written depth (next :: rest) (by simp) h.2 (newline_blanks depth) hb'
    have hwritten := Written.items hb hitem nil_blanks hmore
    have htext : b ++ (prettyItems depth (item :: next :: rest)).toList ++ b' =
        b ++ (item.prettyAt depth).toList ++ [] ++
          ',' :: ((newline depth).toList ++ (prettyItems depth (next :: rest)).toList ++ b') := by
      simp [prettyItems]
    rw [htext]
    exact hwritten

theorem prettyFields_written (depth : Nat) :
    (fs : List (String × Json)) → fs ≠ [] → NumericFields fs → {b b' : List Char} → Blanks b →
      Blanks b' → Written (.fields fs) (b ++ (prettyFields depth fs).toList ++ b')
  | [], hne, _, _, _, _, _ => absurd rfl hne
  | [(name, value)], _, h, b, b', hb, hb' => by
    have hvalue := prettyAt_written depth value h.1
    have hwritten := Written.field hb (escaped_written name.toList) nil_blanks
      space_blanks hvalue hb'
    have htext : b ++ (prettyFields depth [(name, value)]).toList ++ b' =
        b ++ '"' :: (name.toList.flatMap escapeChar ++ '"' ::
          ([] ++ ':' :: ([' '] ++ (value.prettyAt depth).toList ++ b'))) := by
      simp [prettyFields, quoted_toList]
    rw [htext]
    exact hwritten
  | (name, value) :: next :: rest, _, h, b, b', hb, hb' => by
    have hvalue := prettyAt_written depth value h.1
    have hmore := prettyFields_written depth (next :: rest) (by simp) h.2 (newline_blanks depth) hb'
    have hwritten := Written.fields hb (escaped_written name.toList) nil_blanks
      space_blanks hvalue nil_blanks hmore
    have htext : b ++ (prettyFields depth ((name, value) :: next :: rest)).toList ++ b' =
        b ++ '"' :: (name.toList.flatMap escapeChar ++ '"' ::
          ([] ++ ':' :: ([' '] ++ (value.prettyAt depth).toList ++ [] ++
            ',' :: ((newline depth).toList ++ (prettyFields depth (next :: rest)).toList ++ b')))) := by
      simp [prettyFields, quoted_toList]
    rw [htext]
    exact hwritten

end

/-- The indented form of a value, and a newline, is a text of the value. -/
theorem pretty_isText {j : Json} (h : j.Numeric) : IsText (j.pretty ++ "\n") j := by
  refine ⟨[], j.pretty.toList, ['\n'], by simp, by simp [Blanks], prettyAt_written 0 j h, ?_⟩
  simp [Blanks, isBlank]

theorem toDigits_head_ne {n : Nat} (hn : 0 < n) : (Nat.toDigits 10 n).head? ≠ some '0' := by
  induction n using Nat.strongRecOn with
  | ind n ih =>
    by_cases hlt : n < 10
    · rw [Nat.toDigits_of_lt_base hlt]
      have hsmall : ∀ k < 10, 0 < k → [k.digitChar].head? ≠ some '0' := by decide
      exact hsmall n hlt hn
    · have hrest := ih (n / 10) (by omega) (by omega)
      rw [Nat.toDigits_of_base_le (by omega) (by omega), List.head?_append]
      cases hhead : (Nat.toDigits 10 (n / 10)).head? with
      | none => simp [List.head?_eq_none_iff, Nat.toDigits_ne_nil] at hhead
      | some d =>
        rw [hhead] at hrest
        exact hrest

theorem nat_numeric (n : Nat) : (Json.nat n).Numeric := by
  have hdigits : (toString n).toList = Nat.toDigits 10 n := Nat.toList_repr
  have hwhole : Whole (Nat.toDigits 10 n) := by
    refine ⟨⟨Nat.toDigits_ne_nil, ?_⟩, ?_⟩
    · intro c hc
      exact Nat.isDigit_of_mem_toDigits (by omega) (by omega) hc
    · intro hzero
      by_cases hn : n = 0
      · rw [hn]
        rfl
      · exact absurd hzero (toDigits_head_ne (by omega))
  have hnumeral : Numeral ([] ++ Nat.toDigits 10 n ++ [] ++ []) :=
    .mk (Or.inl rfl) hwhole (Or.inl rfl) (Or.inl rfl)
  rw [List.append_nil, List.append_nil, List.nil_append, ← hdigits] at hnumeral
  exact hnumeral

end Json

end ScopeAnalysis
