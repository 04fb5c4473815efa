import NativeMatcher.Code.Mapping
import NativeMatcher.Proofs.Layout

/-!
# Code in memory

What the memory of a code buffer holds after it has been written to, moved or protected. A write to
pages replaces a stretch of bytes and no other (`NativeMatcher.Code.Pages.Stored`), so the bytes
that a buffer counts as emitted are a list in which a stretch is replaced
(`NativeMatcher.Code.Pages.Stored.load`). For an emission the stretch begins where the list ends.

The fields of a buffer and its memory have to agree (`NativeMatcher.Code.Mapping.Sound`): as many
bytes as the capacity says, in whole pages, with the protection that the flag says. As long as they
do, no write of the buffer misses its pages, and each operation is settled by what the buffer shows
(`NativeMatcher.Code.Mapping.Shows`):

* making room changes nothing but the capacity (`NativeMatcher.Code.Mapping.exists_reserve`);
* an emission adds bytes at the end (`NativeMatcher.Code.Mapping.exists_emit`);
* a patch replaces four bytes (`NativeMatcher.Code.Mapping.exists_patch32`);
* a relocation keeps all of them (`NativeMatcher.Code.Mapping.exists_relocated`).

A larger buffer is the only place where sizes are added that no list of bytes bounds. Its capacity
is `NativeMatcher.Code.Mapping.capacityFor`, and it can be had if that fits 64 bits
(`NativeMatcher.Code.Mapping.Fits`).
-/

namespace NativeMatcher

namespace Checked

theorem size_of_lt {op : WordOp} {n : Nat} (h : n < 2 ^ 64) : size op n = .ok n :=
  size_eq_ok_iff.mpr ⟨h, rfl⟩

theorem size_of_le {op : WordOp} {n : Nat} (h : 2 ^ 64 ≤ n) : size op n = .error (.overflow op) :=
  if_neg (Nat.not_lt.mpr h)

end Checked

namespace Code

namespace Buffer

variable {bytes : Array UInt8} {start k : Nat} {vs : List UInt8}

/-- Overwriting replaces a stretch of the bytes. -/
theorem toList_overwrite_of_le (h : start + vs.length ≤ bytes.size) :
    (overwrite bytes start vs).toList =
      bytes.toList.take start ++ vs ++ bytes.toList.drop (start + vs.length) := by
  have hsize : bytes.toList.length = bytes.size := Array.length_toList
  have hpre : (bytes.toList.take start).length = start := by
    rw [List.length_take]
    omega
  have hsplit : bytes.toList = bytes.toList.take start ++
      (bytes.toList.drop start).take vs.length ++ bytes.toList.drop (start + vs.length) := by
    rw [List.append_assoc, ← List.drop_drop, List.take_append_drop, List.take_append_drop]
  have hlen : vs.length = ((bytes.toList.drop start).take vs.length).length := by
    rw [List.length_take, List.length_drop]
    omega
  have hover := Assembler.toList_overwrite hsplit hlen
  rwa [hpre] at hover

/-- Within the stretch that was overwritten the new bytes are read. -/
theorem getElem?_overwrite_of_inside (h : start + vs.length ≤ bytes.size) (hk : k < vs.length) :
    (overwrite bytes start vs)[start + k]? = vs[k]? := by
  have hpre : (bytes.toList.take start).length = start := by
    rw [List.length_take, Array.length_toList]
    omega
  rw [← Array.getElem?_toList, toList_overwrite_of_le h, List.append_assoc,
    List.getElem?_append_right (by omega), hpre, Nat.add_sub_cancel_left,
    List.getElem?_append_left hk]

theorem roundToPage_lt (n : Nat) : roundToPage n < n + pageSize := by
  unfold roundToPage pageSize
  omega

end Buffer

/-! ### Pages -/

namespace Pages

variable {p q : Pages} {start n i k : Nat} {bs : List UInt8}

@[simp] theorem length_load : (p.load start n).length = n := by
  rw [load, List.length_map, List.length_range]

theorem getElem?_load (h : i < n) : (p.load start n)[i]? = some (p.byte (start + i)) := by
  rw [load, List.getElem?_map, List.getElem?_range h]
  rfl

/-- A stretch of the bytes from the lowest address up. -/
theorem drop_take_load (h : start + k ≤ n) :
    ((p.load 0 n).drop start).take k = p.load start k := by
  apply List.ext_getElem?
  intro i
  rcases Nat.lt_or_ge i k with hlt | hge
  · rw [List.getElem?_take_of_lt hlt, List.getElem?_drop, getElem?_load (by omega),
      getElem?_load hlt, Nat.zero_add]
  · rw [List.getElem?_eq_none, List.getElem?_eq_none]
    · rwa [length_load]
    · rw [List.length_take]
      omega

/-- `q` is `p` with a stretch of bytes replaced. -/
structure Stored (p q : Pages) (start : Nat) (bs : List UInt8) : Prop where
  /-- There are as many bytes. -/
  size : q.size = p.size
  /-- The protection is the same. -/
  writable : q.writable = p.writable
  /-- The new bytes. -/
  inside : ∀ k < bs.length, q.byte (start + k) = bs.getD k 0
  /-- The bytes around them. -/
  outside : ∀ i, i < start ∨ start + bs.length ≤ i → q.byte i = p.byte i

/-- Zeros at the end make no difference. -/
theorem getD_append_zeros (bytes : Array UInt8) (k i : Nat) :
    (bytes ++ Array.replicate k (0 : UInt8)).getD i 0 = bytes.getD i 0 := by
  simp only [Array.getD_eq_getD_getElem?, Array.getElem?_append, Array.getElem?_replicate]
  split
  · rfl
  · next h =>
    rw [Array.getElem?_eq_none (Nat.le_of_not_lt h)]
    split <;> rfl

/-- **A write replaces its bytes and no other.** The pages have the size and the protection they
had. Later results use these facts only and no longer look at how pages are stored. -/
theorem stored_of_store (h : p.store start bs = .ok q) : Stored p q start bs := by
  unfold store at h
  split at h
  · next hnil =>
    obtain rfl := Except.ok.inj h
    obtain rfl := List.isEmpty_iff.mp hnil
    exact ⟨rfl, rfl, fun k hk => absurd hk (Nat.not_lt_zero k), fun _ _ => rfl⟩
  · split at h
    · obtain rfl := Except.ok.inj h
      have hroom : start + bs.length ≤
          (p.touched ++ Array.replicate (start + bs.length - p.touched.size) (0 : UInt8)).size := by
        rw [Array.size_append, Array.size_replicate]
        omega
      refine ⟨rfl, rfl, fun k hk => ?_, fun i hi => ?_⟩
      · rw [byte, Array.getD_eq_getD_getElem?, Buffer.getElem?_overwrite_of_inside hroom hk,
          List.getD_eq_getElem?_getD]
      · rw [byte, Array.getD_eq_getD_getElem?, Buffer.getElem?_overwrite_of_outside _ _ _ _ hi,
          ← Array.getD_eq_getD_getElem?, getD_append_zeros]
        rfl
    · cases h

theorem exists_store (hw : p.writable = true) (h : start + bs.length ≤ p.size) :
    ∃ q, p.store start bs = .ok q := by
  unfold store
  split
  · exact ⟨p, rfl⟩
  · rw [hw, decide_eq_true h]
    exact ⟨_, rfl⟩

theorem store_of_protected (hw : p.writable = false) (h : bs ≠ []) :
    p.store start bs = .error .protectedWrite := by
  rw [store, if_neg (by simpa using h), hw]
  rfl

/-- **On the list of the bytes a write replaces a stretch.** This turns what was said byte by byte
into one equation of lists, from which appending and patching follow by arithmetic. -/
theorem Stored.load (h : Stored p q start bs) (hn : start + bs.length ≤ n) :
    q.load 0 n = (p.load 0 n).take start ++ bs ++ (p.load 0 n).drop (start + bs.length) := by
  have hlen : ((p.load 0 n).take start).length = start := by
    rw [List.length_take, length_load]
    omega
  apply List.ext_getElem
  · simp only [List.length_append, List.length_drop, hlen, length_load]
    omega
  intro i hi _
  rw [length_load] at hi
  rw [← Option.some_inj, ← List.getElem?_eq_getElem, ← List.getElem?_eq_getElem, getElem?_load hi,
    Nat.zero_add, List.append_assoc]
  -- The byte lies before the stretch, in it or behind it.
  rcases Nat.lt_or_ge i start with hlt | hge
  · rw [List.getElem?_append_left (by omega), List.getElem?_take_of_lt hlt, getElem?_load hi,
      h.outside i (Or.inl hlt), Nat.zero_add]
  obtain ⟨k, rfl⟩ := Nat.exists_eq_add_of_le hge
  rw [List.getElem?_append_right (by omega), hlen, Nat.add_sub_cancel_left]
  rcases Nat.lt_or_ge k bs.length with hlt | hge
  · rw [List.getElem?_append_left hlt, h.inside k hlt, List.getD_eq_getElem?_getD,
      List.getElem?_eq_getElem hlt]
    rfl
  · rw [List.getElem?_append_right hge, List.getElem?_drop, getElem?_load (by omega),
      h.outside _ (Or.inr (by omega))]
    congr 2
    omega

end Pages

namespace Mapping

variable {m m' : Mapping} {start n needed capacity : Nat} {bs code : List UInt8} {executable : Bool}

/-! ### Computations that change a buffer -/

namespace Change

variable {α β : Type} {x : Change α} {y : Except Fault α} {f : α → Change β} {a : α} {e : Fault}

theorem bind_of_ok (h : x m = .ok a m') : (x >>= f) m = f a m' := by
  simp only [bind, EStateM.bind, h]

theorem bind_of_error (h : x m = .error e m') : (x >>= f) m = .error e m' := by
  simp only [bind, EStateM.bind, h]

theorem of_bind_ok (h : y = .ok a) : (Change.of y >>= f) m = f a m := by
  rw [h]
  rfl

theorem of_bind_error (h : y = .error e) : (Change.of y >>= f) m = .error e m := by
  rw [h]
  rfl

theorem get_bind {f : Mapping → Change β} : ((get : Change Mapping) >>= f) m = f m m := rfl

end Change

open Change

/-! ### Fields and memory that agree -/

/-- The fields of a buffer agree with its memory. -/
structure Sound (m : Mapping) : Prop where
  /-- The capacity is a number of pages. -/
  whole : pageSize ∣ m.capacity
  /-- It fits its word. -/
  small : m.capacity < 2 ^ 64
  /-- What was emitted is inside. -/
  offset_le : m.offset ≤ m.capacity
  /-- Without memory there is no room. -/
  unmapped : m.pages = none → m.capacity = 0
  /-- The memory is as large as the capacity says. -/
  size : ∀ p, m.pages = some p → p.size = m.capacity
  /-- It is writable, unless the buffer is executable. -/
  writable : ∀ p, m.pages = some p → p.writable = !m.executable

/-- As many bytes are read back as were emitted. -/
theorem Sound.length_code (h : Sound m) : m.code.length = m.offset := by
  have hoffset := h.offset_le
  unfold Mapping.code load
  cases hp : m.pages with
  | none =>
    have hcapacity := h.unmapped hp
    rw [List.length_nil]
    omega
  | some p => exact Pages.length_load

/-- What is known of a sound buffer from outside. -/
structure Shows (m : Mapping) (code : List UInt8) (executable : Bool) (capacity : Nat) : Prop where
  /-- Fields and memory agree. -/
  sound : Sound m
  /-- The emitted bytes. -/
  code : m.code = code
  /-- The protection. -/
  executable : m.executable = executable
  /-- The capacity. -/
  capacity : m.capacity = capacity

theorem Sound.shows (h : Sound m) : Shows m m.code m.executable m.capacity := ⟨h, rfl, rfl, rfl⟩

theorem Shows.offset (h : Shows m code executable capacity) : m.offset = code.length := by
  rw [← h.code, h.sound.length_code]

theorem length_load_le (m : Mapping) (start n : Nat) : (m.load start n).length ≤ n := by
  unfold load
  split
  · exact Nat.zero_le n
  · exact Nat.le_of_eq Pages.length_load

theorem drop_take_load (m : Mapping) (start : Nat) {k : Nat} (h : start + k ≤ n) :
    ((m.load 0 n).drop start).take k = m.load start k := by
  unfold load
  split
  · simp
  · exact Pages.drop_take_load h

/-! ### Writing to the memory -/

/-- **Where there is room, a write finds its pages writable** and replaces a stretch of them. -/
theorem exists_store (h : Sound m) (start : Nat) (hw : m.executable = false ∨ bs = [])
    (hroom : start + bs.length ≤ m.capacity) :
    ∃ pages, store start bs m = .ok () { m with pages } ∧ Sound { m with pages } ∧
      ∀ n, start + bs.length ≤ n → load { m with pages } 0 n =
        (m.load 0 n).take start ++ bs ++ (m.load 0 n).drop (start + bs.length) := by
  cases hp : m.pages with
  | none =>
    have hcapacity := h.unmapped hp
    obtain rfl := List.length_eq_zero_iff.mp (show bs.length = 0 by omega)
    have hm : { m with pages := none } = m := by rw [← hp]
    refine ⟨none, ?_, hm ▸ h, fun n _ => ?_⟩
    · rw [hm, store, get_bind, hp]
      rfl
    · simp only [load, hp, List.take_nil, List.drop_nil, List.append_nil]
  | some p =>
    have hsize := h.size p hp
    obtain ⟨q, hq⟩ : ∃ q, p.store start bs = .ok q := by
      rcases hw with hexec | rfl
      · exact Pages.exists_store (by rw [h.writable p hp, hexec]; rfl) (hsize ▸ hroom)
      · exact ⟨p, rfl⟩
    have hstored := Pages.stored_of_store hq
    refine ⟨some q, ?_, ⟨h.whole, h.small, h.offset_le, nofun, ?_, ?_⟩, fun n hn => ?_⟩
    · rw [store, get_bind, hp]
      exact of_bind_ok hq
    · rintro _ ⟨⟩
      exact hstored.size.trans hsize
    · rintro _ ⟨⟩
      exact hstored.writable.trans (h.writable p hp)
    · simp only [load, hp]
      exact hstored.load hn

/-- Executable pages refuse a store of any byte, and a store of none has nothing to refuse. -/
theorem store_of_executable (h : Sound m) (hexec : m.executable = true) (hbs : bs ≠ []) :
    store start bs m = .error .protectedWrite m := by
  rw [store, get_bind]
  cases hp : m.pages with
  | none => exact congrFun (if_neg (by simpa using hbs)) m
  | some p =>
    exact of_bind_error (Pages.store_of_protected (by rw [h.writable p hp, hexec]; rfl) hbs)

/-! ### Fresh memory -/

theorem wholePages_of_lt (h : n + pageSize < 2 ^ 64) : wholePages n = .ok (roundToPage n) := by
  rw [wholePages, Checked.size_of_lt h]
  rfl

theorem wholePages_of_le (h : 2 ^ 64 ≤ n + pageSize) : wholePages n = .error (.overflow .add) := by
  rw [wholePages, Checked.size_of_le h]
  rfl

theorem new_of_lt (h : max n 1 + pageSize < 2 ^ 64) :
    new n = .ok (fresh (roundToPage (max n 1))) := by
  rw [new, wholePages_of_lt h]
  rfl

theorem new_of_le (h : 2 ^ 64 ≤ max n 1 + pageSize) : new n = .error (.overflow .add) := by
  rw [new, wholePages_of_le h]
  rfl

/-- New pages of zeros are writable, and nothing has been emitted into them. -/
theorem sound_fresh (h : max n 1 + pageSize < 2 ^ 64) :
    Sound (fresh (roundToPage (max n 1))) := by
  have hlt := Buffer.roundToPage_lt (max n 1)
  refine ⟨Buffer.roundToPage_dvd _, ?_, Nat.zero_le _, nofun, ?_, ?_⟩
  · simp only [fresh]
    omega
  · rintro _ ⟨⟩
    rfl
  · rintro _ ⟨⟩
    rfl

theorem sound_empty : Sound empty :=
  ⟨Nat.dvd_zero _, by decide, Nat.le_refl _, fun _ => rfl, nofun, nofun⟩

/-! ### Making room -/

/-- What a buffer asks for when it has to hold `needed` bytes. -/
def grown (m : Mapping) (needed : Nat) : Nat := max (max (m.capacity * 2) needed) defaultSize

/-- There is room for `n` more bytes, or the sizes of a larger buffer fit their word. -/
def Fits (m : Mapping) (n : Nat) : Prop :=
  m.offset + n ≤ m.capacity ∨ m.grown (m.offset + n) + pageSize < 2 ^ 64

/-- The capacity with room for `n` more bytes. -/
def capacityFor (m : Mapping) (n : Nat) : Nat :=
  if m.offset + n ≤ m.capacity then m.capacity else roundToPage (m.grown (m.offset + n))

theorem le_grown (m : Mapping) (needed : Nat) : m.capacity * 2 ≤ m.grown needed ∧
    needed ≤ m.grown needed := by
  unfold grown
  omega

/-- Room that is made is room enough, and is never less than there was. -/
theorem le_capacityFor (m : Mapping) (n : Nat) :
    m.capacity ≤ m.capacityFor n ∧ m.offset + n ≤ m.capacityFor n := by
  have hgrown := m.le_grown (m.offset + n)
  have hround := Buffer.le_roundToPage (m.grown (m.offset + n))
  unfold capacityFor
  split <;> omega

/-- Growing copies what was emitted to larger pages. The old ones are left as they are, so nothing
is seen of the change but the capacity. -/
theorem exists_grow (h : Sound m) (hexec : m.executable = false) (hneeded : m.offset ≤ needed)
    (hfits : m.grown needed + pageSize < 2 ^ 64) : ∃ m', grow needed m = .ok () m' ∧
      Shows m' m.code m.executable (roundToPage (m.grown needed)) := by
  have hle := Buffer.le_roundToPage (m.grown needed)
  have hlt := Buffer.roundToPage_lt (m.grown needed)
  have hgrown := m.le_grown needed
  have hlen := h.length_code
  have hpages : wholePages (max (max (m.capacity * 2) needed) defaultSize) =
      .ok (roundToPage (m.grown needed)) := wholePages_of_lt hfits
  obtain ⟨q, hq⟩ : ∃ q, Pages.store { size := roundToPage (m.grown needed) } 0 m.code = .ok q :=
    Pages.exists_store rfl (by simp only; omega)
  have hstored := Pages.stored_of_store hq
  refine ⟨{ m with pages := some q, capacity := roundToPage (m.grown needed) }, ?_,
    ⟨Buffer.roundToPage_dvd _, by simp only; omega, by simp only; omega, nofun, ?_, ?_⟩, ?_, rfl,
    rfl⟩
  · rw [grow, get_bind, of_bind_ok (Checked.size_of_lt (by omega)), of_bind_ok hpages,
      of_bind_ok hq]
    rfl
  · rintro _ ⟨⟩
    exact hstored.size
  · rintro _ ⟨⟩
    rw [hstored.writable, hexec]
    rfl
  · -- Nothing but the code has been stored to the new pages.
    have hload := hstored.load (n := m.offset) (by omega)
    rw [List.drop_of_length_le (by rw [Pages.length_load]; omega)] at hload
    simpa only [Mapping.code, load, List.take_zero, List.nil_append, List.append_nil] using hload

/-- Growth beyond the address space is refused: already when the capacity is doubled, or when the
result is rounded up to pages. -/
theorem grow_of_not_fits (hfits : ¬ m.grown needed + pageSize < 2 ^ 64) :
    grow needed m = .error (.overflow (if 2 ^ 64 ≤ m.capacity * 2 then .mul else .add)) m := by
  rw [grow, get_bind]
  split
  · next h => exact of_bind_error (Checked.size_of_le h)
  · next h =>
    rw [of_bind_ok (Checked.size_of_lt (Nat.lt_of_not_le h))]
    exact of_bind_error (wholePages_of_le (Nat.le_of_not_lt hfits))

/-- **Making room changes nothing but the capacity.** What was emitted is copied to new pages if it
has to move, and the buffer shows the same code. -/
theorem exists_reserve (h : Sound m) (hw : m.executable = false ∨ n = 0) (hfits : m.Fits n) :
    ∃ m', reserve n m = .ok () m' ∧ Shows m' m.code m.executable (m.capacityFor n) := by
  have hoffset := h.offset_le
  have hsmall := h.small
  unfold Fits at hfits
  unfold capacityFor
  by_cases hroom : m.offset + n ≤ m.capacity
  · refine ⟨m, ?_, ?_⟩
    · rw [reserve, get_bind, of_bind_ok (Checked.size_of_lt (by omega)), if_pos hroom]
      rfl
    · rw [if_pos hroom]
      exact h.shows
  · have hexec : m.executable = false := hw.resolve_right (by omega)
    have hfits' := hfits.resolve_left hroom
    have hgrown := m.le_grown (m.offset + n)
    obtain ⟨m', hgrow, hshows⟩ := exists_grow h hexec (Nat.le_add_right m.offset n) hfits'
    refine ⟨m', ?_, ?_⟩
    · rw [reserve, get_bind, of_bind_ok (Checked.size_of_lt (by omega)), if_neg hroom,
        if_neg (ne_true_of_eq_false hexec)]
      exact hgrow
    · rwa [if_neg hroom]

/-! ### Emission -/

/-- **An emission adds its bytes at the end**, if it fits and the buffer is writable. Room is made
first, so the write that follows cannot leave the pages. -/
theorem exists_emit (h : Sound m) (hw : m.executable = false ∨ bs = []) (hfits : m.Fits bs.length) :
    ∃ m', emit bs m = .ok () m' ∧
      Shows m' (m.code ++ bs) m.executable (m.capacityFor bs.length) := by
  obtain ⟨m₁, hreserve, h₁⟩ := exists_reserve h (hw.imp_right fun hbs => by rw [hbs]; rfl) hfits
  have hroom : m₁.offset + bs.length ≤ m₁.capacity := by
    rw [h₁.offset, h.length_code, h₁.capacity]
    exact (m.le_capacityFor bs.length).2
  obtain ⟨pages, hstore, hsound, hload⟩ :=
    exists_store h₁.sound m₁.offset (hw.imp_left h₁.executable.trans) hroom
  refine ⟨{ m₁ with pages, offset := m₁.offset + bs.length }, ?_,
    ⟨hsound.whole, hsound.small, hroom, hsound.unmapped, hsound.size, hsound.writable⟩, ?_,
    h₁.executable, h₁.capacity⟩
  · rw [emit, bind_of_ok hreserve, get_bind, bind_of_ok hstore]
    rfl
  · have hcode : (m₁.load 0 (m₁.offset + bs.length)).take m₁.offset = m₁.code :=
      drop_take_load m₁ 0 (by omega)
    rw [← h₁.code, ← hcode]
    refine (hload _ (Nat.le_refl _)).trans ?_
    rw [List.drop_of_length_le (length_load_le m₁ 0 _), List.append_nil]

/-- An emission into an executable buffer is stopped by the buffer only where it asks for room, and
by the processor where there is room. -/
theorem emit_of_executable (h : Sound m) (hexec : m.executable = true) (hbs : bs ≠ []) :
    emit bs m = .error
      (if 2 ^ 64 ≤ m.offset + bs.length then .overflow .add
        else if m.offset + bs.length ≤ m.capacity then .protectedWrite
        else .writeExecutable) m := by
  rw [emit]
  split
  · next hlarge =>
    refine bind_of_error ?_
    rw [reserve, get_bind, of_bind_error (Checked.size_of_le hlarge)]
  · next hlarge =>
    have hsum : Checked.size .add (m.offset + bs.length) = .ok (m.offset + bs.length) :=
      Checked.size_of_lt (Nat.lt_of_not_le hlarge)
    split
    · next hroom =>
      have hreserve : reserve bs.length m = .ok () m := by
        rw [reserve, get_bind, of_bind_ok hsum, if_pos hroom]
        rfl
      rw [bind_of_ok hreserve, get_bind, bind_of_error (store_of_executable h hexec hbs)]
    · next hroom =>
      refine bind_of_error ?_
      rw [reserve, get_bind, of_bind_ok hsum, if_neg hroom, if_pos hexec]
      rfl

/-- Bytes that cannot be made room for are refused. The new offset is computed before the new
capacity, which is where the two kinds of overflow come from. -/
theorem emit_of_not_fits (hexec : m.executable = false) (hfits : ¬ m.Fits bs.length) :
    emit bs m = .error
      (if 2 ^ 64 ≤ m.offset + bs.length then .overflow .add
        else .overflow (if 2 ^ 64 ≤ m.capacity * 2 then .mul else .add)) m := by
  obtain ⟨hroom, hlarge⟩ := not_or.mp hfits
  rw [emit]
  refine bind_of_error ?_
  rw [reserve, get_bind]
  by_cases hsum : 2 ^ 64 ≤ m.offset + bs.length
  · rw [of_bind_error (Checked.size_of_le hsum), if_pos hsum]
  · rw [of_bind_ok (Checked.size_of_lt (Nat.lt_of_not_le hsum)), if_neg hsum, if_neg hroom,
      if_neg (ne_true_of_eq_false hexec)]
    exact grow_of_not_fits hlarge

/-! ### Patches and reads -/

/-- **A patch replaces four bytes** inside the emitted code of a writable buffer. No room is made,
since a patch stays inside of what was emitted. -/
theorem exists_patch32 (h : Sound m) (hin : start + 4 ≤ m.code.length)
    (hexec : m.executable = false) (v : UInt32) :
    ∃ m', patch32 start v m = .ok () m' ∧
      Shows m' (m.code.take start ++ bytes32 v ++ m.code.drop (start + 4)) m.executable
        m.capacity := by
  rw [h.length_code] at hin
  have hoffset := h.offset_le
  have hsmall := h.small
  have hlen := length_bytes32 v
  have hroom : start + (bytes32 v).length ≤ m.capacity := by omega
  obtain ⟨pages, hstore, hsound, hload⟩ := exists_store h start (Or.inl hexec) hroom
  refine ⟨{ m with pages }, ?_, hsound, ?_, rfl, rfl⟩
  · rw [patch32, get_bind, of_bind_ok (Checked.size_of_lt (by omega)), if_neg (by omega),
      if_neg (ne_true_of_eq_false hexec)]
    exact hstore
  · have hcode := hload m.offset (by omega)
    rwa [hlen] at hcode

/-- A patch is refused for the first rule that it breaks: its end has to be a number, lie in what
was emitted, and be writable. -/
theorem patch32_of_refused (h : Sound m) (v : UInt32)
    (hout : ¬ (start + 4 ≤ m.code.length ∧ m.executable = false)) :
    patch32 start v m = .error
      (if 2 ^ 64 ≤ start + 4 then .overflow .add
        else if m.code.length < start + 4 then .patchOutside else .patchExecutable) m := by
  rw [h.length_code] at hout ⊢
  rw [patch32, get_bind]
  by_cases hlarge : 2 ^ 64 ≤ start + 4
  · rw [of_bind_error (Checked.size_of_le hlarge), if_pos hlarge]
  rw [of_bind_ok (Checked.size_of_lt (Nat.lt_of_not_le hlarge)), if_neg hlarge]
  by_cases hend : m.offset < start + 4
  · rw [if_pos hend, if_pos hend]
    rfl
  · have hexec : m.executable = true := by
      rw [← Bool.not_eq_false]
      exact fun hexec => hout ⟨Nat.le_of_not_lt hend, hexec⟩
    rw [if_neg hend, if_neg hend, if_pos hexec]
    rfl

/-- Reading answers the four bytes at a place inside the emitted code. -/
theorem read32_eq (h : Sound m) : m.read32 start =
    if start + 4 ≤ m.code.length then
      .ok (UInt32.ofNat (ofBytes ((m.code.drop start).take 4)))
    else .error (if 2 ^ 64 ≤ start + 4 then .overflow .add else .readOutside) := by
  have hoffset := h.offset_le
  have hsmall := h.small
  rw [h.length_code]
  split
  · next hin =>
    rw [read32, Checked.size_of_lt (by omega), Mapping.code, drop_take_load m start hin]
    exact if_neg (by omega)
  · next hout =>
    split
    · next hlarge =>
      rw [read32, Checked.size_of_le hlarge]
      rfl
    · next hlarge =>
      rw [read32, Checked.size_of_lt (Nat.lt_of_not_le hlarge)]
      exact if_pos (by omega)

/-! ### Protection and relocation -/

/-- `m` with another protection. -/
def protectedAs (m : Mapping) (executable : Bool) : Mapping :=
  { m with pages := m.pages.map fun p => { p with writable := !executable }, executable }

/-- Protection changes no byte. -/
theorem code_protectedAs (m : Mapping) (x : Bool) : (m.protectedAs x).code = m.code := by
  unfold Mapping.code load protectedAs
  cases m.pages with
  | none => rfl
  | some p => rfl

/-- Changing the protection changes what may be stored and not what is there. -/
theorem shows_protectedAs (h : Sound m) (x : Bool) :
    Shows (m.protectedAs x) m.code x m.capacity where
  sound :=
    { whole := h.whole
      small := h.small
      offset_le := h.offset_le
      unmapped := fun hp => h.unmapped (Option.map_eq_none_iff.mp hp)
      size := fun p hp => by
        obtain ⟨q, hq, rfl⟩ := Option.map_eq_some_iff.mp hp
        exact h.size q hq
      writable := fun p hp => by
        obtain ⟨q, -, rfl⟩ := Option.map_eq_some_iff.mp hp
        rfl }
  code := m.code_protectedAs x
  executable := rfl
  capacity := rfl

/-- A fresh buffer that takes code over shows it. -/
theorem exists_takeOver (h : Sound m) (hfits : max m.offset 1 + pageSize < 2 ^ 64) :
    ∃ m', m.takeOver (fresh (roundToPage (max m.offset 1))) = .ok () m' ∧
      Shows m' m.code m.executable (roundToPage (max m.offset 1)) := by
  have hlen := h.length_code
  have hle := Buffer.le_roundToPage (max m.offset 1)
  have hroom : 0 + m.code.length ≤ (fresh (roundToPage (max m.offset 1))).capacity := by
    simp only [fresh]
    omega
  obtain ⟨pages, hstore, hsound, hload⟩ := exists_store (sound_fresh hfits) 0 (Or.inl rfl) hroom
  -- The copy as it is before it is made executable.
  let copy : Mapping := { fresh (roundToPage (max m.offset 1)) with pages, offset := m.offset }
  have hcopy : Sound copy := ⟨hsound.whole, hsound.small, by simp only [copy, fresh]; omega,
    hsound.unmapped, hsound.size, hsound.writable⟩
  have hcode : copy.code = m.code := by
    have hall := hload m.offset (by omega)
    rw [List.drop_of_length_le (Nat.le_trans (length_load_le _ _ _) (by omega)), List.take_zero,
      List.nil_append, List.append_nil] at hall
    exact hall
  rw [takeOver, bind_of_ok hstore]
  cases hexec : m.executable with
  | false => exact ⟨copy, rfl, hcopy, hcode, rfl, rfl⟩
  | true => exact ⟨copy.protectedAs true, rfl, hcode ▸ shows_protectedAs hcopy true⟩

/-- **A relocated buffer shows the same code with the same protection.** Its capacity is that of the
code alone, which may be less than it was. -/
theorem exists_relocated (h : Sound m) (hfits : max m.code.length 1 + pageSize < 2 ^ 64) :
    ∃ m', m.relocated = .ok m' ∧
      Shows m' m.code m.executable (roundToPage (max m.code.length 1)) := by
  rw [h.length_code] at hfits ⊢
  obtain ⟨m', htake, hshows⟩ := exists_takeOver h hfits
  refine ⟨m', ?_, hshows⟩
  rw [relocated, new_of_lt hfits]
  simp only [bind, Except.bind, htake]
  rfl

end Mapping

end Code

end NativeMatcher
