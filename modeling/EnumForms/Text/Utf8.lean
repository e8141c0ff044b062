import EnumForms.Text

/-!
UTF-8, strictly: no surrogates, no overlong forms, nothing above U+10FFFF. A byte order mark is
a code point like any other.
-/
namespace EnumForms.Utf8

/-- The bytes of one code point; a surrogate has none. -/
def encodePoint (c : CodePoint) : Option (List UInt8) :=
  let n := c.val
  let tail (n : Nat) : UInt8 := UInt8.ofNat (0x80 + n % 64)
  if c.isSurrogate then none
  else if n < 0x80 then some [UInt8.ofNat n]
  else if n < 0x800 then some [UInt8.ofNat (0xC0 + n / 0x40), tail n]
  else if n < 0x10000 then some [UInt8.ofNat (0xE0 + n / 0x1000), tail (n / 0x40), tail n]
  else
    some [UInt8.ofNat (0xF0 + n / 0x40000), tail (n / 0x1000), tail (n / 0x40), tail n]

def encode? : Text → Option (List UInt8)
  | [] => some []
  | c :: t => do
    let bytes ← encodePoint c
    let rest ← encode? t
    some (bytes ++ rest)

def continuation? (b : UInt8) : Option Nat :=
  if 0x80 ≤ b.toNat ∧ b.toNat ≤ 0xBF then some (b.toNat - 0x80) else none

def inRange? (low n : Nat) : Option CodePoint := do
  let c ← CodePoint.ofNat? n
  if low ≤ n ∧ !c.isSurrogate then some c else none

def decode? : List UInt8 → Option Text
  | [] => some []
  | a :: s =>
    if a.toNat < 0x80 then do
      let c ← CodePoint.ofNat? a.toNat
      let t ← decode? s
      some (c :: t)
    else if 0xC2 ≤ a.toNat ∧ a.toNat ≤ 0xDF then
      match s with
      | b :: s => do
        let x ← continuation? b
        let c ← inRange? 0x80 ((a.toNat - 0xC0) * 64 + x)
        let t ← decode? s
        some (c :: t)
      | _ => none
    else if 0xE0 ≤ a.toNat ∧ a.toNat ≤ 0xEF then
      match s with
      | b :: b' :: s => do
        let x ← continuation? b
        let y ← continuation? b'
        let c ← inRange? 0x800 (((a.toNat - 0xE0) * 64 + x) * 64 + y)
        let t ← decode? s
        some (c :: t)
      | _ => none
    else if 0xF0 ≤ a.toNat ∧ a.toNat ≤ 0xF4 then
      match s with
      | b :: b' :: b'' :: s => do
        let x ← continuation? b
        let y ← continuation? b'
        let z ← continuation? b''
        let c ← inRange? 0x10000 ((((a.toNat - 0xF0) * 64 + x) * 64 + y) * 64 + z)
        let t ← decode? s
        some (c :: t)
      | _ => none
    else none

end EnumForms.Utf8
