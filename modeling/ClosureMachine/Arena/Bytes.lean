import ClosureMachine.Arena.Access

/-!
Regions of plain bytes. A block is sixteen bytes, elements lie packed one behind the other, and an
element may straddle two blocks. Whatever has a fixed-size byte encoding can be stored.
-/

namespace ClosureMachine

abbrev ByteBlock := Vector UInt8 blockSize

/-- Types with an encoding of a fixed number of bytes. -/
class Encoded (α : Type) where
  size : Nat
  alignment : Nat
  encode : α → List UInt8
  decode : List UInt8 → Option α

/-- Decoding inverts encoding, and every encoding has the stated length. -/
class LawfulEncoded (α : Type) [Encoded α] : Prop where
  length_encode (x : α) : (Encoded.encode x).length = Encoded.size α
  decode_encode (x : α) : Encoded.decode (Encoded.encode x) = some x

/-- The lowest `n` base-256 digits of a number, least first. -/
def littleEndian : Nat → Nat → List UInt8
  | 0, _ => []
  | n + 1, x => UInt8.ofNat (x % 256) :: littleEndian n (x / 256)

/-- The number with the given base-256 digits, least first. -/
def ofLittleEndian : List UInt8 → Nat
  | [] => 0
  | b :: bs => b.toNat + 256 * ofLittleEndian bs

theorem length_littleEndian (n x : Nat) : (littleEndian n x).length = n := by
  induction n generalizing x with
  | zero => rfl
  | succ n ih => simp [littleEndian, ih]

theorem ofLittleEndian_littleEndian (n x : Nat) :
    ofLittleEndian (littleEndian n x) = x % Nat.pow 256 n := by
  induction n generalizing x with
  | zero => simp [littleEndian, ofLittleEndian, Nat.mod_one]
  | succ n ih =>
    have hd : (UInt8.ofNat (x % 256)).toNat = x % 256 := by simp
    rw [littleEndian, ofLittleEndian, ih, hd, show Nat.pow 256 (n + 1) = 256 * Nat.pow 256 n from
      Nat.mul_comm (Nat.pow 256 n) 256, Nat.mod_mul]

namespace ByteBlock

/-- Byte `p` of a region, counted from its start. -/
def byteAt (region : Array ByteBlock) (p : Nat) : Option UInt8 :=
  region[p / blockSize]?.bind fun block => block[p % blockSize]?

def setByte (region : Array ByteBlock) (p : Nat) (b : UInt8) : Array ByteBlock :=
  region.modify (p / blockSize) fun block => block.setIfInBounds (p % blockSize) b

/-- Write bytes from position `p` on. -/
def writeBytes : Nat → List UInt8 → Array ByteBlock → Array ByteBlock
  | _, [], region => region
  | p, b :: bs, region => writeBytes (p + 1) bs (setByte region p b)

/-- Read `n` bytes from position `p` on. -/
def readBytes (region : Array ByteBlock) (p n : Nat) : Option (List UInt8) :=
  (List.range n).mapM fun k => byteAt region (p + k)

end ByteBlock

instance {α : Type} [Encoded α] : Storable ByteBlock α where
  size := Encoded.size α
  alignment := Encoded.alignment α
  read region base i :=
    (ByteBlock.readBytes region (base * blockSize + i * Encoded.size α) (Encoded.size α)).bind
      Encoded.decode
  write region base i x :=
    ByteBlock.writeBytes (base * blockSize + i * Encoded.size α) (Encoded.encode x) region

instance : Encoded UInt8 where
  size := 1
  alignment := 1
  encode x := [x]
  decode
    | [x] => some x
    | _ => none

instance : Encoded UInt32 where
  size := 4
  alignment := 4
  encode x := littleEndian 4 x.toNat
  decode bs := if bs.length = 4 then some (UInt32.ofNat (ofLittleEndian bs)) else none

instance : Encoded UInt64 where
  size := 8
  alignment := 8
  encode x := littleEndian 8 x.toNat
  decode bs := if bs.length = 8 then some (UInt64.ofNat (ofLittleEndian bs)) else none

instance : Encoded Unit where
  size := 0
  alignment := 1
  encode _ := []
  decode
    | [] => some ()
    | _ => none

/-- Three 64-bit words: larger than a block and no multiple of it. -/
structure Triple where
  first : UInt64
  second : UInt64
  third : UInt64
  deriving DecidableEq, Repr, Inhabited

instance : Encoded Triple where
  size := 24
  alignment := 8
  encode x :=
    littleEndian 8 x.first.toNat ++ littleEndian 8 x.second.toNat ++
      littleEndian 8 x.third.toNat
  decode bs :=
    if bs.length = 24 then
      let word k := UInt64.ofNat (ofLittleEndian ((bs.drop k).take 8))
      some ⟨word 0, word 8, word 16⟩
    else none

/-- A word that insists on an alignment of 32 bytes, which no block has. -/
structure Wide where
  value : UInt64
  deriving DecidableEq, Repr, Inhabited

instance : Encoded Wide where
  size := 32
  alignment := 32
  encode x := littleEndian 32 x.value.toNat
  decode bs := if bs.length = 32 then some ⟨UInt64.ofNat (ofLittleEndian bs)⟩ else none

inductive Element where
  | byte
  | word
  | long
  | triple
  | unit
  | wide
  deriving DecidableEq, Repr, Inhabited

namespace Element

abbrev Carrier : Element → Type
  | byte => UInt8
  | word => UInt32
  | long => UInt64
  | triple => Triple
  | unit => Unit
  | wide => Wide

instance (e : Element) : Encoded e.Carrier :=
  match e with
  | byte => inferInstanceAs (Encoded UInt8)
  | word => inferInstanceAs (Encoded UInt32)
  | long => inferInstanceAs (Encoded UInt64)
  | triple => inferInstanceAs (Encoded Triple)
  | unit => inferInstanceAs (Encoded Unit)
  | wide => inferInstanceAs (Encoded Wide)

end Element

instance : LawfulEncoded UInt8 where
  length_encode _ := rfl
  decode_encode _ := rfl

instance : LawfulEncoded Unit where
  length_encode _ := rfl
  decode_encode _ := rfl

instance : LawfulEncoded UInt32 where
  length_encode x := length_littleEndian 4 x.toNat
  decode_encode x := by
    have h : x.toNat % Nat.pow 256 4 = x.toNat := Nat.mod_eq_of_lt x.toNat_lt
    simp only [Encoded.decode, Encoded.encode, length_littleEndian, ofLittleEndian_littleEndian,
      h, ↓reduceIte, UInt32.ofNat_toNat]

instance : LawfulEncoded UInt64 where
  length_encode x := length_littleEndian 8 x.toNat
  decode_encode x := by
    have h : x.toNat % Nat.pow 256 8 = x.toNat := Nat.mod_eq_of_lt x.toNat_lt
    simp only [Encoded.decode, Encoded.encode, length_littleEndian, ofLittleEndian_littleEndian,
      h, ↓reduceIte, UInt64.ofNat_toNat]

end ClosureMachine
