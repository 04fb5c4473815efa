import NativeMatcher.Fault
import NativeMatcher.Code.Bytes

/-!
# Code buffers

The memory that machine code is written into. A buffer is either writable or
executable, never both. While it is writable it grows on demand, in whole pages;
growing moves the bytes, and so does `NativeMatcher.Code.Buffer.relocated`, which
is why nothing may hold an address into a buffer.

The emitted bytes are the whole observable contents. Capacity and protection
decide only which operations fault:

* `NativeMatcher.Code.Buffer.append` – emission, at the end;
* `NativeMatcher.Code.Buffer.patch32` – overwriting a field that was emitted
  before its label was known;
* `NativeMatcher.Code.Buffer.read32` – reading such a field back.
-/

namespace NativeMatcher.Code

/-- The size of a page of memory. -/
def pageSize : Nat := 4096

/-- The least number of pages that holds `n` bytes, in bytes. -/
def roundToPage (n : Nat) : Nat := (n + (pageSize - 1)) / pageSize * pageSize

/-- Machine code in memory. -/
structure Buffer where
  /-- The bytes emitted so far. -/
  bytes : Array UInt8
  /-- The size of the mapping. -/
  capacity : Nat
  /-- Whether the mapping is executable, and then not writable. -/
  executable : Bool
  deriving Repr

namespace Buffer

/-- A buffer without a mapping. -/
def empty : Buffer := ⟨#[], 0, false⟩

/-- A buffer with room for `size` bytes. -/
def new (size : Nat) : Except Fault Buffer := do
  let _ ← Checked.size .add (max size 1 + pageSize)
  return ⟨#[], roundToPage (max size 1), false⟩

/-- A buffer of the default size. -/
def default : Buffer := ⟨#[], pageSize, false⟩

/-- The number of bytes emitted. -/
def size (b : Buffer) : Nat := b.bytes.size

/-- Whether the byte at distance `d` from the start of the buffer is emitted code. -/
def contains (b : Buffer) (d : Int) : Bool :=
  b.capacity != 0 && 0 ≤ d && d < b.size

/-- Makes room for `n` more bytes: a full buffer at least doubles. -/
def reserve (b : Buffer) (n : Nat) : Except Fault Buffer :=
  if b.size + n ≤ b.capacity then .ok b
  else if b.executable then .error .writeExecutable
  else .ok { b with capacity := roundToPage (max (max (b.capacity * 2) (b.size + n)) pageSize) }

/-- Emits `bs` at the end. -/
def append (b : Buffer) (bs : List UInt8) : Except Fault Buffer := do
  let b ← b.reserve bs.length
  if b.executable && !bs.isEmpty then throw .protectedWrite
  return { b with bytes := b.bytes.appendList bs }

/-- `bytes` with the bytes from `offset` on replaced by `bs`. -/
def overwrite (bytes : Array UInt8) (offset : Nat) : List UInt8 → Array UInt8
  | [] => bytes
  | v :: vs => overwrite (bytes.setIfInBounds offset v) (offset + 1) vs

/-- Replaces the four bytes at `offset`. -/
def patch32 (b : Buffer) (offset : Nat) (v : UInt32) : Except Fault Buffer := do
  let stop ← Checked.size .add (offset + 4)
  if b.size < stop then throw .patchOutside
  if b.executable then throw .patchExecutable
  return { b with bytes := overwrite b.bytes offset (bytes32 v) }

/-- The emitted bytes from `start` up to `stop`. -/
def window (b : Buffer) (start stop : Nat) : List UInt8 :=
  (b.bytes.extract start stop).toList

/-- The word at `offset`. -/
def read32 (b : Buffer) (offset : Nat) : Except Fault UInt32 := do
  let stop ← Checked.size .add (offset + 4)
  if b.size < stop then throw .readOutside
  return UInt32.ofNat (ofBytes (b.window offset stop))

/-- The emitted bytes from `start` up to `stop`, which have to be in order. Bounds past the
emitted bytes are reported first. -/
def slice (b : Buffer) (start stop : Nat) : Except Fault (List UInt8) :=
  if b.size < start then .error (.sliceStart start b.size)
  else if b.size < stop then .error (.sliceEnd stop b.size)
  else if stop < start then .error (.sliceOrder start stop)
  else .ok (b.window start stop)

/-- Makes the buffer executable and no longer writable. -/
def setExecutable (b : Buffer) : Buffer := { b with executable := true }

/-- Makes the buffer writable and no longer executable. -/
def setWritable (b : Buffer) : Buffer := { b with executable := false }

/-- A copy in fresh memory, just large enough, with the same protection. -/
def relocated (b : Buffer) : Buffer :=
  { b with capacity := roundToPage (max b.size 1) }

/-! ### Lemmas -/

theorem roundToPage_dvd (n : Nat) : pageSize ∣ roundToPage n := Nat.dvd_mul_left _ _

theorem le_roundToPage (n : Nat) : n ≤ roundToPage n := by
  unfold roundToPage pageSize
  omega

@[simp] theorem size_overwrite (bytes : Array UInt8) (offset : Nat) (vs : List UInt8) :
    (overwrite bytes offset vs).size = bytes.size := by
  induction vs generalizing bytes offset with
  | nil => rfl
  | cons v vs ih => simp [overwrite, ih]

/-- Overwriting changes no byte outside its window. -/
theorem getElem?_overwrite_of_outside (bytes : Array UInt8) (offset i : Nat) (vs : List UInt8)
    (h : i < offset ∨ offset + vs.length ≤ i) : (overwrite bytes offset vs)[i]? = bytes[i]? := by
  induction vs generalizing bytes offset with
  | nil => rfl
  | cons v vs ih =>
    simp only [List.length_cons] at h
    rw [overwrite, ih _ _ (by omega), Array.getElem?_setIfInBounds_ne (by omega)]

/-- Making room changes no byte. -/
theorem bytes_reserve {b c : Buffer} {n : Nat} (h : b.reserve n = .ok c) : c.bytes = b.bytes := by
  unfold reserve at h
  split at h
  · exact (Except.ok.inj h) ▸ rfl
  · split at h
    · cases h
    · exact (Except.ok.inj h) ▸ rfl

/-- Emission adds its bytes at the end. -/
theorem toList_bytes_append {b c : Buffer} {bs : List UInt8} (h : b.append bs = .ok c) :
    c.bytes.toList = b.bytes.toList ++ bs := by
  unfold append at h
  cases hr : b.reserve bs.length with
  | error f => simp [hr, bind, Except.bind] at h
  | ok d =>
    simp only [hr, bind, Except.bind] at h
    split at h
    · cases h
    · obtain rfl := Except.ok.inj h
      simp [bytes_reserve hr]

/-- Nothing is emitted into an executable buffer. -/
theorem append_eq_error_of_executable {b : Buffer} {bs : List UInt8} (he : b.executable = true)
    (hb : bs ≠ []) : ∃ f, b.append bs = .error f := by
  unfold append reserve
  split
  · refine ⟨.protectedWrite, ?_⟩
    simp [bind, Except.bind, he, hb]
    rfl
  · refine ⟨.writeExecutable, ?_⟩
    simp [bind, Except.bind]

@[simp] theorem bytes_relocated (b : Buffer) : b.relocated.bytes = b.bytes := rfl

@[simp] theorem executable_relocated (b : Buffer) : b.relocated.executable = b.executable := rfl

/-- Relocating twice is relocating once. -/
@[simp] theorem relocated_relocated (b : Buffer) : b.relocated.relocated = b.relocated := rfl

end Buffer

end NativeMatcher.Code
