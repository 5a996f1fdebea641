/-!
Reading octets as UTF-8. Each maximal part that begins a character and cannot be completed is
read as one replacement character, so that any octets can be read.
-/

namespace DocAnnotations.Text.Utf8

/-- A character whose first octets have been read: `owed` more octets are due, the next of them
between `low` and `high`. -/
structure Partial where
  owed : Nat
  low : Nat
  high : Nat
  bits : Nat

/-- What a first octet begins: a whole character, a part of one, or nothing. -/
inductive Start where
  | whole (c : Char)
  | part (p : Partial)
  | invalid

/-- The bounds of the second octet exclude overlong forms, surrogates and numbers that are too
large. -/
def start (b : Nat) : Start :=
  if b < 0x80 then .whole (Char.ofNat b)
  else if b < 0xc2 then .invalid
  else if b < 0xe0 then .part ⟨1, 0x80, 0xbf, b - 0xc0⟩
  else if b < 0xf0 then
    .part ⟨2, if b = 0xe0 then 0xa0 else 0x80, if b = 0xed then 0x9f else 0xbf, b - 0xe0⟩
  else if b < 0xf5 then
    .part ⟨3, if b = 0xf0 then 0x90 else 0x80, if b = 0xf4 then 0x8f else 0xbf, b - 0xf0⟩
  else .invalid

def replacement : Char := '\ufffd'

/-- The characters that an octet completes between characters, and what it begins. -/
def begin (b : Nat) : List Char × Option Partial :=
  match start b with
  | .whole c => ([c], none)
  | .part p => ([], some p)
  | .invalid => ([replacement], none)

/-- The characters that an octet completes after a part of a character, and what is pending. -/
def step (pending : Option Partial) (b : Nat) : List Char × Option Partial :=
  match pending with
  | none => begin b
  | some p =>
    if p.low ≤ b && b ≤ p.high then
      let bits := p.bits * 64 + (b - 0x80)
      if p.owed ≤ 1 then ([Char.ofNat bits], none)
      else ([], some ⟨p.owed - 1, 0x80, 0xbf, bits⟩)
    else
      let (out, next) := begin b
      (replacement :: out, next)

def decodeFrom (pending : Option Partial) : List UInt8 → List Char
  | [] => if pending.isSome then [replacement] else []
  | o :: os =>
    let (out, next) := step pending o.toNat
    out ++ decodeFrom next os

/-- The text that the octets are read as. -/
def decode (octets : List UInt8) : String :=
  String.ofList (decodeFrom none octets)

example : decode [0x61, 0xc3, 0xa9, 0xff, 0xe2, 0x82, 0x62] = "aé\ufffd\ufffdb" := by decide

end DocAnnotations.Text.Utf8
