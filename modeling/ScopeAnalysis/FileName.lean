namespace ScopeAnalysis

/-- The name of an entry in a directory. Its bytes need not encode a text. -/
structure FileName where
  bytes : List UInt8
deriving DecidableEq, Repr, Inhabited

namespace FileName

def ofText (text : String) : FileName :=
  ⟨text.toList.flatMap String.utf8EncodeChar⟩

instance : Coe String FileName := ⟨ofText⟩

instance : Coe (List String) (List FileName) := ⟨List.map ofText⟩

/-- The name of what stands before the first slash of an absolute path. -/
def blank : FileName := ""

def here : FileName := "."

def up : FileName := ".."

/-- The text that the bytes encode, if they encode one. -/
def text? (n : FileName) : Option String :=
  String.fromUTF8? n.bytes.toByteArray

/-- A character of which some bytes are read: its value so far, and the ranges in which the bytes
still to come must be. -/
structure Partial where
  value : Nat
  ranges : List (UInt8 × UInt8)

def first? (b : UInt8) : Option Partial :=
  let any : UInt8 × UInt8 := (0x80, 0xBF)
  if 0xC2 ≤ b && b ≤ 0xDF then some ⟨b.toNat - 0xC0, [any]⟩
  else if b == 0xE0 then some ⟨0, [(0xA0, 0xBF), any]⟩
  else if b == 0xED then some ⟨0xD, [(0x80, 0x9F), any]⟩
  else if 0xE1 ≤ b && b ≤ 0xEF then some ⟨b.toNat - 0xE0, [any, any]⟩
  else if b == 0xF0 then some ⟨0, [(0x90, 0xBF), any, any]⟩
  else if 0xF1 ≤ b && b ≤ 0xF3 then some ⟨b.toNat - 0xF0, [any, any, any]⟩
  else if b == 0xF4 then some ⟨4, [(0x80, 0x8F), any, any]⟩
  else none

def replacement : Char := '\uFFFD'

/-- The characters that are complete with a byte, and the one that it leaves incomplete. -/
def start (b : UInt8) : List Char × Option Partial :=
  if b < 0x80 then ([Char.ofNat b.toNat], none)
  else
    match first? b with
    | some char => ([], some char)
    | none => ([replacement], none)

def next : Option Partial → UInt8 → List Char × Option Partial
  | some ⟨value, (low, high) :: ranges⟩, b =>
    if low ≤ b && b ≤ high then
      let value := value * 64 + (b.toNat - 0x80)
      if ranges.isEmpty then ([Char.ofNat value], none) else ([], some ⟨value, ranges⟩)
    else
      let (chars, rest) := start b
      (replacement :: chars, rest)
  | _, b => start b

/-- The characters of some bytes. Each stretch that begins no longer character is replaced. -/
def decode : Option Partial → List UInt8 → List Char
  | char, [] => if char.isSome then [replacement] else []
  | char, b :: bytes =>
    let (chars, char) := next char b
    chars ++ decode char bytes

/-- The name as it is shown. -/
def shown (n : FileName) : String :=
  n.text?.getD (String.ofList (decode none n.bytes))

end FileName

end ScopeAnalysis
