import ChillHints.Hint.Table
import ChillHints.Rejection

/-!
# The container of a hint table

All numbers are little endian. A container is

    magic: 32 bits, edition: 32 bits, instructions: 32 bits, hints: 32 bits, then each hint
    hint: position: 32 bits, entries: 8 bits, then each entry
    entry: class: 8 bits, number: 8 bits, next use: 32 bits

A next use of 0 is `never`. Reading checks the header before anything else, then takes the body apart, and only then
looks at what the fields say, so that missing bytes are noticed first.
-/

namespace ChillHints

namespace Container

/-- The first four bytes of every container, as a number. -/
def magic : Nat := 0x6c6c6863

/-! ## Bytes -/

/-- A number below `2 ^ 32`. -/
def word (n : Nat) : List UInt8 :=
  [UInt8.ofNat n, UInt8.ofNat (n / 0x100), UInt8.ofNat (n / 0x10000), UInt8.ofNat (n / 0x1000000)]

abbrev Reader (α : Type) := List UInt8 → Except ContainerFault (α × List UInt8)

def readByte : Reader UInt8
  | b :: rest => .ok (b, rest)
  | _ => .error (.truncated 8)

def readWord : Reader Nat
  | a :: b :: c :: d :: rest =>
    .ok (a.toNat + b.toNat * 0x100 + c.toNat * 0x10000 + d.toNat * 0x1000000, rest)
  | _ => .error (.truncated 32)

/-- Reads `n` things, one after the other. -/
def readMany {α : Type} (read : Reader α) : Nat → Reader (List α)
  | 0, bytes => .ok ([], bytes)
  | n + 1, bytes => do
    let (x, bytes) ← read bytes
    let (xs, bytes) ← readMany read n bytes
    return (x :: xs, bytes)

/-! ## Fields -/

/-- The fields of an entry. -/
structure RawEntry where
  cls : UInt8
  idx : UInt8
  nextUse : Nat
deriving DecidableEq

/-- The fields of a hint. -/
structure RawHint where
  iidx : Nat
  entries : List RawEntry
deriving DecidableEq

def readEntry : Reader RawEntry := fun bytes => do
  let (cls, bytes) ← readByte bytes
  let (idx, bytes) ← readByte bytes
  let (nextUse, bytes) ← readWord bytes
  return (⟨cls, idx, nextUse⟩, bytes)

def readHint : Reader RawHint := fun bytes => do
  let (iidx, bytes) ← readWord bytes
  let (count, bytes) ← readByte bytes
  let (entries, bytes) ← readMany readEntry count.toNat bytes
  return (⟨iidx, entries⟩, bytes)

/-- The number of instructions and the hints, which take up all bytes. -/
def readBody (bytes : List UInt8) : Except ContainerFault (Nat × List RawHint) := do
  let (numInsts, bytes) ← readWord bytes
  let (count, bytes) ← readWord bytes
  let (hints, bytes) ← readMany readHint count bytes
  if bytes.isEmpty then return (numInsts, hints) else throw (.trailing bytes.length)

/-! ## What the fields say -/

/-- Is this a number of a register of the class? -/
def inBounds (e : Edition) (cls : RegClass) (idx : UInt8) : Bool :=
  match cls with
  | .gp => idx.toNat < e.numGp
  | .sp => idx == 0

/-- The entries of the hint at `iidx`, which must have keys from `least` on and ascend. -/
def checkEntries (e : Edition) (iidx : Nat) : Nat → List RawEntry → Except ContainerFault (List HintEntry)
  | _, [] => .ok []
  | least, raw :: rest =>
    match RegClass.ofCode? raw.cls with
    | none => .error (.badClass raw.cls.toNat iidx)
    | some cls =>
      if !inBounds e cls raw.idx then .error (.idxOutOfBounds cls raw.idx.toNat iidx)
      else
        let entry : HintEntry := ⟨cls, raw.idx, NextUse.ofRaw raw.nextUse⟩
        if entry.key < least then .error (.entriesOutOfOrder iidx)
        else do return entry :: (← checkEntries e iidx (entry.key + 1) rest)

/-- The hints, which must have positions from `least` up to `numInsts` and ascend. -/
def checkHints (e : Edition) (numInsts : Nat) : Nat → List RawHint → Except ContainerFault (List Hint)
  | _, [] => .ok []
  | least, raw :: rest =>
    if numInsts ≤ raw.iidx then .error (.hintBeyondEnd raw.iidx numInsts)
    else if raw.iidx < least then .error (.hintOutOfOrder raw.iidx)
    else do
      let entries ← checkEntries e raw.iidx 0 raw.entries
      if entries.isEmpty then throw (.emptyHint raw.iidx)
      return ⟨raw.iidx, entries⟩ :: (← checkHints e numInsts (raw.iidx + 1) rest)

end Container

namespace HintTable

/-- The table in a container, which must be one of edition `expected`. -/
def decode (bytes : List UInt8) (expected : Edition) : Except Rejection HintTable := do
  let (magic, bytes) ← (Container.readWord bytes).mapError .decode
  let (number, bytes) ← (Container.readWord bytes).mapError .decode
  if magic ≠ Container.magic then throw (.decode (.badMagic magic))
  let edition ← Edition.ofNumber number
  edition.expect expected
  let (numInsts, raw) ← (Container.readBody bytes).mapError .decode
  let hints ← (Container.checkHints edition numInsts 0 raw).mapError .decode
  return ⟨edition, numInsts, hints⟩

/-- The bytes of an entry. -/
def encodeEntry (x : HintEntry) : List UInt8 := x.cls.code :: x.idx :: Container.word x.nextUse.raw

/-- The bytes of a hint. -/
def encodeHint (h : Hint) : List UInt8 :=
  Container.word h.iidx ++ UInt8.ofNat h.entries.length :: h.entries.flatMap encodeEntry

/-- The container of a table whose numbers fit into its fields. -/
def encode (t : HintTable) : Except Rejection (List UInt8) :=
  match t.hints.find? fun h => 0xff < h.entries.length with
  | some h => .error (.encode (.tooManyEntries h.iidx))
  | none =>
    if 0xffffffff < t.instsLen then .error (.encode .tooManyInsts)
    else if 0xffffffff < t.numHints then .error (.encode .tooManyHints)
    else
      .ok (Container.word Container.magic ++ Container.word t.edition.number ++ Container.word t.instsLen
        ++ Container.word t.numHints ++ t.hints.flatMap encodeHint)

end HintTable

end ChillHints
