import ScopeAnalysis.Proofs.Positions

namespace ScopeAnalysis

/-- The byte that ends a line. -/
def lineFeed : UInt8 := 10

/-- The bytes of characters. -/
def encode (cs : List Char) : List UInt8 :=
  cs.flatMap String.utf8EncodeChar

@[simp] theorem encode_append (cs ds : List Char) : encode (cs ++ ds) = encode cs ++ encode ds :=
  List.flatMap_append

theorem length_encode (cs : List Char) : (encode cs).length = byteLength cs := by
  induction cs with
  | nil => rfl
  | cons c cs ih =>
    rw [encode, List.flatMap_cons, List.length_append, String.length_utf8EncodeChar, byteLength]
    exact congrArg (c.utf8Size + ·) ih

/-- A byte with its highest bit set ends no line. -/
theorem or_ne_lineFeed (x : UInt8) {high : UInt8} (h : high.toNat.testBit 7 = true) :
    x ||| high ≠ lineFeed := by
  intro he
  have hbit : (x ||| high).toNat.testBit 7 = true := by
    rw [UInt8.toNat_or, Nat.testBit_or, h, Bool.or_true]
  rw [he] at hbit
  exact absurd hbit (by decide)

/-- Only a newline has its byte. -/
theorem count_utf8EncodeChar (c : Char) :
    (String.utf8EncodeChar c).count lineFeed = if c = '\n' then 1 else 0 := by
  have hsize : c.utf8Size = 1 ∨ c.utf8Size = 2 ∨ c.utf8Size = 3 ∨ c.utf8Size = 4 := by
    have hpos := c.utf8Size_pos
    have hfour := c.utf8Size_le_four
    omega
  have hlong : c.utf8Size ≠ 1 → c ≠ '\n' := by
    rintro hne rfl
    exact hne (by decide)
  have hnext (x : UInt8) : x ||| 0x80 ≠ lineFeed := or_ne_lineFeed x (by decide)
  rcases hsize with h | h | h | h
  · have hbound : c.val.toNat ≤ 127 := by
      have hle := Char.utf8Size_eq_one_iff.mp h
      rw [UInt32.le_iff_toNat_le] at hle
      exact hle
    have hbyte : c.val.toUInt8 = lineFeed ↔ c = '\n' := by
      rw [← UInt8.toNat_inj, UInt32.toNat_toUInt8, Nat.mod_eq_of_lt (by omega)]
      constructor
      · intro hval
        exact Char.ext (UInt32.toNat_inj.mp hval)
      · rintro rfl
        rfl
    rw [String.utf8EncodeChar_eq_singleton h, List.count_singleton]
    simp only [beq_iff_eq, hbyte]
  · have hfirst (x : UInt8) : x ||| 0xc0 ≠ lineFeed := or_ne_lineFeed x (by decide)
    rw [String.utf8EncodeChar_eq_cons_cons h, if_neg (hlong (by omega))]
    simp [hfirst, hnext]
  · have hfirst (x : UInt8) : x ||| 0xe0 ≠ lineFeed := or_ne_lineFeed x (by decide)
    rw [String.utf8EncodeChar_eq_cons_cons_cons h, if_neg (hlong (by omega))]
    simp [hfirst, hnext]
  · have hfirst (x : UInt8) : x ||| 0xf0 ≠ lineFeed := or_ne_lineFeed x (by decide)
    rw [String.utf8EncodeChar_eq_cons_cons_cons_cons h, if_neg (hlong (by omega))]
    simp [hfirst, hnext]

theorem count_encode (cs : List Char) : (encode cs).count lineFeed = cs.count '\n' := by
  induction cs with
  | nil => rfl
  | cons c cs ih =>
    rw [encode, List.flatMap_cons, List.count_append, count_utf8EncodeChar, List.count_cons,
      Nat.add_comm]
    simp only [beq_iff_eq]
    exact congrArg (· + _) ih

/-- The last line of the bytes starts at `start`: just after their last newline, or at 0 when there
is none. -/
structure LastLineFrom (bytes : List UInt8) (start : Nat) : Prop where
  within : start ≤ bytes.length
  clear : lineFeed ∉ bytes.drop start
  opened : start = 0 ∨ (bytes.take start).getLast? = some lineFeed

namespace LastLineFrom

variable {bytes more : List UInt8} {start start' : Nat}

/-- Bytes without a newline stay on the line. -/
theorem append (h : LastLineFrom bytes start) (hmore : lineFeed ∉ more) :
    LastLineFrom (bytes ++ more) start := by
  refine ⟨?_, ?_, ?_⟩
  · rw [List.length_append]
    exact Nat.le_add_right_of_le h.within
  · rw [List.drop_append_of_le_length h.within, List.mem_append]
    rintro (hold | hnew)
    · exact h.clear hold
    · exact hmore hnew
  · rw [List.take_append_of_le_length h.within]
    exact h.opened

theorem le_of (h : LastLineFrom bytes start) (h' : LastLineFrom bytes start') : start' ≤ start := by
  by_contra hlt
  rcases h'.opened with hzero | hlast
  · omega
  · -- the newline before `start'` would stand on the line from `start`
    have hsplit : bytes.take start' = bytes.take start ++ (bytes.take start').drop start := by
      have htake : bytes.take start = (bytes.take start').take start := by
        rw [List.take_take, Nat.min_eq_left (by omega)]
      rw [htake, List.take_append_drop]
    have hne : (bytes.take start').drop start ≠ [] := by
      have hwithin := h'.within
      rw [← List.length_pos_iff, List.length_drop, List.length_take]
      omega
    rw [hsplit, List.getLast?_append_of_ne_nil _ hne] at hlast
    have hmem := List.mem_of_getLast? hlast
    rw [List.drop_take] at hmem
    exact h.clear (List.mem_of_mem_take hmem)

theorem unique (h : LastLineFrom bytes start) (h' : LastLineFrom bytes start') : start = start' :=
  Nat.le_antisymm (h'.le_of h) (h.le_of h')

end LastLineFrom

/-- A text is what comes before its last line, and that line. -/
theorem lastLine_split (cs : List Char) :
    ∃ closed, cs = closed ++ lastLine cs ∧ '\n' ∉ lastLine cs ∧
      (closed = [] ∨ ∃ lines, closed = lines ++ ['\n']) := by
  induction cs using List.reverseRecOn with
  | nil => exact ⟨[], rfl, List.not_mem_nil, .inl rfl⟩
  | append_singleton cs c ih =>
    obtain ⟨closed, hcs, hclear, hclosed⟩ := ih
    rw [lastLine_snoc]
    by_cases hc : c = '\n'
    · rw [if_pos hc, hc]
      exact ⟨cs ++ ['\n'], (List.append_nil _).symm, List.not_mem_nil, .inr ⟨cs, rfl⟩⟩
    · rw [if_neg hc]
      refine ⟨closed, ?_, ?_, hclosed⟩
      · rw [← List.append_assoc, ← hcs]
      · rw [List.mem_append, List.mem_singleton]
        rintro (hold | hnew)
        · exact hclear hold
        · exact hc hnew.symm

/-- The last line of characters is that of their bytes. -/
theorem lastLineFrom_encode (cs : List Char) :
    LastLineFrom (encode cs) (byteLength cs - byteLength (lastLine cs)) := by
  obtain ⟨closed, hcs, hclear, hclosed⟩ := lastLine_split cs
  have hstart : byteLength cs - byteLength (lastLine cs) = (encode closed).length := by
    rw [length_encode]
    have hsum := congrArg byteLength hcs
    rw [byteLength_append] at hsum
    omega
  have hbytes : encode cs = encode closed ++ encode (lastLine cs) := by
    rw [← encode_append, ← hcs]
  rw [hstart, hbytes]
  refine LastLineFrom.append ⟨Nat.le_refl _, ?_, ?_⟩ ?_
  · rw [List.drop_length]
    exact List.not_mem_nil
  · rw [List.take_length]
    rcases hclosed with rfl | ⟨lines, rfl⟩
    · exact .inl rfl
    · right
      rw [encode_append]
      exact List.getLast?_append_of_ne_nil _ (by decide)
  · rw [← List.count_eq_zero, count_encode, List.count_eq_zero]
    exact hclear

/-- The first place comes before the second: on an earlier line, or further to the left. -/
def Location.Precedes (l l' : Location) : Prop :=
  l.line < l'.line ∨ (l.line = l'.line ∧ l.column < l'.column)

/-- The number of bytes up to a line, counted from 0. -/
def lineOffset : Nat → List UInt8 → Nat
  | 0, _ => 0
  | _ + 1, [] => 0
  | n + 1, b :: bytes => lineOffset (if b = lineFeed then n else n + 1) bytes + 1

/-- All newlines of bytes that end in one are passed after exactly these bytes. -/
theorem lineOffset_closed {closed : List UInt8} (h : closed = [] ∨ closed.getLast? = some lineFeed)
    (rest : List UInt8) : lineOffset (closed.count lineFeed) (closed ++ rest) = closed.length := by
  induction closed with
  | nil => rw [List.count_nil, lineOffset, List.length_nil]
  | cons b closed ih =>
    have hlast : (b :: closed).getLast? = some lineFeed := h.resolve_left (List.cons_ne_nil _ _)
    have hclosed : closed = [] ∨ closed.getLast? = some lineFeed := by
      rcases closed with _ | ⟨d, ds⟩
      · exact .inl rfl
      · exact .inr (by rwa [List.getLast?_cons_cons] at hlast)
    have hrest := ih hclosed
    by_cases hb : b = lineFeed
    · rw [hb, List.count_cons_self, List.cons_append, lineOffset, if_pos rfl, hrest,
        List.length_cons]
    · have hmem : lineFeed ∈ closed := by
        rcases hclosed with rfl | hlast'
        · exact absurd (by simpa using hlast) hb
        · exact List.mem_of_getLast? hlast'
      obtain ⟨n, hn⟩ := Nat.exists_eq_succ_of_ne_zero (List.count_pos_iff.mpr hmem).ne'
      rw [hn] at hrest
      rw [List.count_cons_of_ne hb, hn, List.cons_append, lineOffset, if_neg hb, hrest,
        List.length_cons]

namespace SourceText

variable {s : SourceText} {k k' : Nat} {l l' : Location}

def bytes (s : SourceText) : List UInt8 :=
  s.text.toUTF8.data.toList

/-- An offset that splits no character: a boundary between characters, or past the end. -/
def IsStop (s : SourceText) (k : Nat) : Prop :=
  String.Pos.Raw.IsValid s.text ⟨k⟩ ∨ s.text.utf8ByteSize < k

/-- The place of an offset: the line counts the newlines before it, and the column the bytes from
the start of that line. -/
structure PlacedAt (s : SourceText) (k : Nat) (l : Location) : Prop where
  line : l.line = (s.bytes.take k).count lineFeed + 1
  column : ∃ start, LastLineFrom (s.bytes.take k) start ∧ start ≤ k ∧ l.column = k - start + 1

/-- The offset that has a place. -/
def offsetAt (s : SourceText) (l : Location) : Nat :=
  lineOffset (l.line - 1) s.bytes + (l.column - 1)

theorem bytes_eq (s : SourceText) : s.bytes = encode s.chars := by
  rw [bytes, String.toUTF8_eq_toByteArray, ← String.utf8Encode_toList, List.utf8Encode,
    List.toList_data_toByteArray]
  rfl

theorem length_bytes (s : SourceText) : s.bytes.length = s.byteSize := by
  rw [bytes_eq, length_encode, byteSize]

/-- What is read up to a stop are whole characters, whose bytes are those before the stop. -/
theorem IsStop.before (h : s.IsStop k) :
    ∃ read, s.before? k = some read ∧ s.bytes.take k = encode read := by
  rcases h with hvalid | hpast
  · obtain ⟨front, back, htext, hk⟩ := String.Pos.Raw.isValid_iff_exists_append.mp hvalid
    have hchars : s.chars = front.toList ++ back.toList := by
      rw [chars, htext, String.toList_append]
    have hlength : k = byteLength front.toList := by
      have hbytes := length_bytes ⟨front⟩
      have hsize : front.utf8ByteSize = (bytes ⟨front⟩).length := rfl
      have hidx : k = front.utf8ByteSize := congrArg String.Pos.Raw.byteIdx hk
      rw [hidx, hsize, hbytes]
      rfl
    refine ⟨front.toList, ?_, ?_⟩
    · have hle : k ≤ s.byteSize := by
        rw [byteSize, hchars, byteLength_append]
        omega
      rw [before?, Nat.min_eq_left hle, hchars, hlength]
      exact takeBytes?_append _ _
    · rw [bytes_eq, hchars, encode_append, hlength, ← length_encode, List.take_left]
  · have hsize : s.byteSize ≤ k := by
      have hbytes : s.text.utf8ByteSize = s.bytes.length := rfl
      rw [← length_bytes, ← hbytes]
      exact hpast.le
    refine ⟨s.chars, ?_, ?_⟩
    · have hall := takeBytes?_append s.chars []
      rw [List.append_nil] at hall
      rw [before?, Nat.min_eq_right hsize, byteSize, hall]
    · rw [← bytes_eq, List.take_of_length_le (by rw [length_bytes]; exact hsize)]

/-- Every stop of a text has its place. -/
theorem IsStop.placed {start : Nat} {span : Span} (hs : s.text ≠ "")
    (h : s.IsStop (offset start span)) :
    ∃ l, s.locateFrom? start span = some l ∧ s.PlacedAt (offset start span) l := by
  obtain ⟨read, hread, hbytes⟩ := h.before
  have hline := lastLineFrom_encode read
  have hle : (encode read).length ≤ offset start span := by
    rw [← hbytes, List.length_take]
    exact Nat.min_le_left _ _
  have hstart := hline.within.trans hle
  rw [← hbytes] at hline
  refine ⟨⟨read.count '\n' + 1,
    offset start span - (byteLength read - byteLength (lastLine read)) + 1⟩, ?_, ?_, _, hline,
    hstart, rfl⟩
  · unfold locateFrom?
    dsimp only
    split
    next hfirst =>
      -- nothing is read at the start of the text
      have hzero : offset start span = 0 := by
        rw [Bool.or_eq_true, String.isEmpty_iff, beq_iff_eq] at hfirst
        exact hfirst.resolve_left hs
      have hnone : read = [] := by
        rw [length_encode, hzero] at hle
        exact byteLength_eq_zero (Nat.le_zero.mp hle)
      rw [hzero, hnone]
      rfl
    next => rw [hread, Option.map_some]
  · rw [hbytes, count_encode]

/-- Later offsets have later places. -/
theorem PlacedAt.precedes (h : s.PlacedAt k l) (h' : s.PlacedAt k' l') (hlt : k < k') :
    l.Precedes l' := by
  obtain ⟨start, hstart, hle, hcolumn⟩ := h.column
  obtain ⟨start', hstart', hle', hcolumn'⟩ := h'.column
  let between := (s.bytes.drop k).take (k' - k)
  have hsplit : s.bytes.take k' = s.bytes.take k ++ between := by
    rw [← List.take_add, Nat.add_sub_cancel' hlt.le]
  have hcount : (s.bytes.take k').count lineFeed =
      (s.bytes.take k).count lineFeed + between.count lineFeed := by
    rw [hsplit, List.count_append]
  rw [hsplit] at hstart'
  by_cases hbetween : lineFeed ∈ between
  · left
    have hpos := List.count_pos_iff.mpr hbetween
    rw [h.line, h'.line, hcount]
    omega
  · right
    have hsame : start = start' := (hstart.append hbetween).unique hstart'
    have hnone := List.count_eq_zero.mpr hbetween
    rw [h.line, h'.line, hcount, hcolumn, hcolumn']
    omega

/-- A place leads back to its offset. -/
theorem PlacedAt.offsetAt_eq (h : s.PlacedAt k l) : s.offsetAt l = k := by
  obtain ⟨start, hstart, hle, hcolumn⟩ := h.column
  have hbound : start ≤ (s.bytes.take k).length := hstart.within
  have hclosed : s.bytes.take start = [] ∨ (s.bytes.take start).getLast? = some lineFeed := by
    rcases hstart.opened with hzero | hlast
    · exact .inl (by rw [hzero, List.take_zero])
    · rw [List.take_take, Nat.min_eq_left hle] at hlast
      exact .inr hlast
  have hcount : (s.bytes.take k).count lineFeed = (s.bytes.take start).count lineFeed := by
    have hclear := List.count_eq_zero.mpr hstart.clear
    have hsum := congrArg (List.count lineFeed) (List.take_append_drop start (s.bytes.take k))
    rw [List.count_append, hclear, List.take_take, Nat.min_eq_left hle] at hsum
    exact hsum.symm
  have hline : lineOffset (l.line - 1) s.bytes = start := by
    have hall := lineOffset_closed hclosed (s.bytes.drop start)
    rw [List.take_append_drop] at hall
    rw [h.line, Nat.add_sub_cancel, hcount, hall, List.length_take, Nat.min_eq_left]
    exact hbound.trans (List.length_take_le' _ _)
  rw [offsetAt, hline, hcolumn]
  omega

end SourceText

/-- The places of a text that is not empty, wherever its first byte is counted. Every offset that
splits no character has its place, from which it can be read back, and later offsets have later
places. -/
theorem location_coordinates (s : SourceText) (hs : s.text ≠ "") (start : Nat) :
    (∀ span, s.IsStop (SourceText.offset start span) →
      ∃ l, s.locateFrom? start span = some l ∧ s.PlacedAt (SourceText.offset start span) l ∧
        s.offsetAt l = SourceText.offset start span) ∧
    (∀ span span', s.IsStop (SourceText.offset start span) →
      s.IsStop (SourceText.offset start span') →
      SourceText.offset start span < SourceText.offset start span' →
      ∃ l l', s.locateFrom? start span = some l ∧ s.locateFrom? start span' = some l' ∧
        l.Precedes l') := by
  constructor
  · intro span hstop
    obtain ⟨l, hl, hplaced⟩ := hstop.placed hs
    exact ⟨l, hl, hplaced, hplaced.offsetAt_eq⟩
  · intro span span' hstop hstop' hlt
    obtain ⟨l, hl, hplaced⟩ := hstop.placed hs
    obtain ⟨l', hl', hplaced'⟩ := hstop'.placed hs
    exact ⟨l, l', hl, hl', hplaced.precedes hplaced' hlt⟩

/-- A text that starts at 7: the end of its first line, behind a character of two bytes, and an
offset past its end. -/
theorem accentedLine_coordinates :
    accentedLine.text ≠ "" ∧ accentedLine.IsStop (SourceText.offset 7 ⟨10, 11⟩) ∧
      accentedLine.IsStop (SourceText.offset 7 ⟨20, 20⟩) ∧
      (∃ l, accentedLine.locateFrom? 7 ⟨10, 11⟩ = some l ∧ l = ⟨1, 4⟩ ∧
        accentedLine.offsetAt l = 3) ∧
      (∃ l l', accentedLine.locateFrom? 7 ⟨10, 11⟩ = some l ∧
        accentedLine.locateFrom? 7 ⟨20, 20⟩ = some l' ∧ l' = ⟨2, 10⟩ ∧ l.Precedes l') := by
  have htext : accentedLine.text ≠ "" := by decide
  have hstop : accentedLine.IsStop (SourceText.offset 7 ⟨10, 11⟩) :=
    .inl (String.Pos.Raw.isValid_iff_exists_append.mpr ⟨"é;", "\nx", by decide, by decide⟩)
  have hpast : accentedLine.IsStop (SourceText.offset 7 ⟨20, 20⟩) := .inr (by decide)
  have hfirst : accentedLine.locateFrom? 7 ⟨10, 11⟩ = some ⟨1, 4⟩ := by decide
  have hlast : accentedLine.locateFrom? 7 ⟨20, 20⟩ = some ⟨2, 10⟩ := by decide
  refine ⟨htext, hstop, hpast, ?_, ?_⟩
  · obtain ⟨l, hl, -, hoffset⟩ := (location_coordinates accentedLine htext 7).1 _ hstop
    exact ⟨l, hl, Option.some.inj (hl.symm.trans hfirst), hoffset⟩
  · obtain ⟨l, l', hl, hl', hlt⟩ :=
      (location_coordinates accentedLine htext 7).2 _ _ hstop hpast (by decide)
    exact ⟨l, l', hl, hl', Option.some.inj (hl'.symm.trans hlast), hlt⟩

end ScopeAnalysis
