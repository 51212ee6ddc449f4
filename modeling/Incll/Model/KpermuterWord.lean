import Mathlib.Data.Nat.Basic

/-! # `kpermuter<width>` as a word (`kpermuter.hh`)

A leaf stores a word of `storage_type`. The operations compute with words of `value_type`, which for
a width up to 3 are wider. -/

namespace Incll.Model

def storageBits (width : Nat) : Nat := if width ≤ 3 then 16 else if width ≤ 7 then 32 else 64

def valueBits (width : Nat) : Nat := if width ≤ 7 then 32 else 64

structure KpermuterWord (width : Nat) where
  x : BitVec (storageBits width)
  deriving DecidableEq

namespace KpermuterWord

section
variable {v : Nat} (x : BitVec v)

/-- The value of `insert_from_back`, with the element that it allocates. -/
def insertFromBackValue (i value : Nat) : BitVec v :=
  ((x + 1#v) &&& ((16#v <<< (4 * i)) - 1#v))
    ||| (BitVec.ofNat v value <<< (4 * i + 4))
    ||| ((x <<< 4) &&& ~~~((256#v <<< (4 * i)) - 1#v))

def insertSelectedValue (di si value : Nat) : BitVec v :=
  let mask : BitVec v := (256#v <<< (4 * si)) - 1#v
  ((x + 1#v) &&& ((16#v <<< (4 * di)) - 1#v))
    ||| (BitVec.ofNat v value <<< (4 * di + 4))
    ||| ((x <<< 4) &&& mask &&& ~~~((256#v <<< (4 * di)) - 1#v))
    ||| (x &&& ~~~mask)

/-- The rotation of `remove`. -/
def removeValue (i size : Nat) : BitVec v :=
  let rotAmount := 4 * (size - i - 1)
  let rotMask : BitVec v := ((16#v <<< rotAmount) - 1#v) <<< (4 * (i + 1))
  ((x - 1#v) &&& ~~~rotMask)
    ||| (((x &&& rotMask) >>> 4) &&& rotMask)
    ||| (((x &&& rotMask) <<< rotAmount) &&& rotMask)

def removeToBackValue (width i : Nat) : BitVec v :=
  let mask : BitVec v := ~~~((16#v <<< (4 * i)) - 1#v)
  let x := x &&& ((16#v <<< (4 * width)) - 1#v)
  ((x - 1#v) &&& ~~~mask) ||| ((x >>> 4) &&& mask) ||| ((x &&& mask) <<< (4 * (width - i - 1)))

def exchangeValue (i j : Nat) : BitVec v :=
  let diff := ((x >>> (4 * i)) ^^^ (x >>> (4 * j))) &&& 240#v
  x ^^^ ((diff <<< (4 * i)) ||| (diff <<< (4 * j)))

end

variable {width : Nat}

def maxWidth (width : Nat) : Nat := storageBits width / 4 - 1

def initialValue (width : Nat) : BitVec (valueBits width) :=
  BitVec.ofNat _ (if width ≤ 3 then 0x0120 else if width ≤ 7 then 0x01234560 else 0x0123456789ABCDE0)

def fullValue (width : Nat) : BitVec (valueBits width) :=
  BitVec.ofNat _ (if width ≤ 3 then 0x2100 else if width ≤ 7 then 0x65432100 else 0xEDCBA98765432100)

def ofValue (x : BitVec (valueBits width)) : KpermuterWord width := ⟨x.setWidth _⟩

def value (p : KpermuterWord width) : BitVec (valueBits width) := p.x.setWidth _

def makeEmpty (width : Nat) : BitVec (valueBits width) :=
  (initialValue width >>> (4 * (maxWidth width - width))) &&& ~~~15

def makeSorted (width n : Nat) : BitVec (valueBits width) :=
  let mask := (if n = width then 0 else 16#(valueBits width) <<< (4 * n)) - 1
  (makeEmpty width <<< (4 * n)) ||| (fullValue width &&& mask) ||| BitVec.ofNat _ n

def size (p : KpermuterWord width) : Nat := (p.value &&& 15).toNat

def get (p : KpermuterWord width) (i : Nat) : Nat := ((p.value >>> (4 * i + 4)) &&& 15).toNat

def back (p : KpermuterWord width) : Nat := p.get (width - 1)

def setSize (p : KpermuterWord width) (n : Nat) : KpermuterWord width :=
  ofValue ((p.value &&& ~~~15) ||| BitVec.ofNat _ n)

def insertFromBack (p : KpermuterWord width) (i : Nat) : KpermuterWord width × Nat :=
  (ofValue (insertFromBackValue p.value i p.back), p.back)

def insertSelected (p : KpermuterWord width) (di si : Nat) : KpermuterWord width :=
  ofValue (insertSelectedValue p.value di si (p.get si))

def remove (p : KpermuterWord width) (i : Nat) : KpermuterWord width :=
  if p.size = i + 1 then ofValue (p.value - 1) else ofValue (removeValue p.value i p.size)

def removeToBack (p : KpermuterWord width) (i : Nat) : KpermuterWord width :=
  ofValue (removeToBackValue p.value width i)

def exchange (p : KpermuterWord width) (i j : Nat) : KpermuterWord width :=
  ofValue (exchangeValue p.value i j)

end KpermuterWord
end Incll.Model
