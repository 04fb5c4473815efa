import Mathlib.Algebra.Order.Group.Unbundled.Int
import Mathlib.Algebra.Order.Ring.Int
import NativeMatcher.Frame.Layout

/-!
# Words of a frame

A layout computes offsets in three ways: slots above the frame pointer are counted from zero, slots
below it from minus one, and capture registers from where the slots below end. Each location of a
frame (`NativeMatcher.Frame.Location`) so has a *place*, a whole number of words, and the places are
all different, whatever the lists are (`NativeMatcher.Frame.Layout.eq_of_locate`). Distinctness of
the slots is asked for another reason: of a slot that is listed twice the second place would never
be used.

An offset is a place times the word size, computed in 32 bits. As long as that is exact
(`NativeMatcher.Frame.Layout.Fits`), different places are a word apart, and no word overlaps another
one (`NativeMatcher.Frame.Layout.offsets_apart`).
-/

namespace NativeMatcher.Frame

/-- What has a word of its own in a frame. -/
inductive Location where
  /-- A slot. -/
  | slot (s : Slot)
  /-- A capture register. -/
  | register (index : Nat)
  deriving DecidableEq, Repr

namespace Layout

/-- Whether a layout has a location: any capture register, and the slots that it lists. -/
def Lists (l : Layout) : Location → Prop
  | .slot s => s ∈ l.above ++ l.below
  | .register _ => True

/-- The place of a location in words above the frame pointer, if the layout has it. -/
def locate (l : Layout) : Location → Option Int
  | .slot s => l.place? s
  | .register i => some (l.registerPlace i)

/-- The offset of a location from the frame pointer, if the layout has it. -/
def offsetOf (l : Layout) : Location → Except Fault (Option Int32)
  | .slot s => l.tryOffset s
  | .register i => some <$> l.registerOffset i

/-- Whether the offset of a place is inside 32 bits. Below the frame pointer words are counted
before they are negated, and the count has to be inside as well. -/
def Fits (l : Layout) (p : Int) : Prop :=
  -2 ^ 31 < p ∧ -2 ^ 31 ≤ p * l.wordSize.toInt ∧ p * l.wordSize.toInt < 2 ^ 31

instance (l : Layout) (p : Int) : Decidable (l.Fits p) := inferInstanceAs (Decidable (_ ∧ _ ∧ _))

/-- A layout has a location, and its offset is inside 32 bits. -/
def Holds (l : Layout) (x : Location) : Prop := l.Lists x ∧ ∀ p, l.locate x = some p → l.Fits p

variable {l : Layout} {s : Slot} {x y : Location} {p : Int}

/-! ### Places -/

theorem getElem?_of_idxOf? {slots : List Slot} {i : Nat} (h : slots.idxOf? s = some i) :
    slots[i]? = some s := by
  obtain ⟨hi, hget, -⟩ := List.idxOf?_eq_some_iff.mp h
  rw [List.getElem?_eq_getElem hi, hget]

/-- The place of a slot, list by list. -/
theorem place?_eq (l : Layout) (s : Slot) : l.place? s =
    ((l.above.idxOf? s).map fun i : Nat => (i : Int)).or
      ((l.below.idxOf? s).map fun i : Nat => -((i : Int) + 1)) := by
  rw [place?]
  cases l.above.idxOf? s <;> cases l.below.idxOf? s <;> rfl

/-- A slot is placed by its index in one of the lists. -/
theorem place?_eq_some (h : l.place? s = some p) :
    (∃ i : Nat, l.above[i]? = some s ∧ p = i) ∨
      ∃ i : Nat, l.below[i]? = some s ∧ p = -((i : Int) + 1) := by
  rw [place?_eq, Option.or_eq_some_iff] at h
  rcases h with h | ⟨-, h⟩
  · obtain ⟨i, hi, rfl⟩ := Option.map_eq_some_iff.mp h
    exact Or.inl ⟨i, getElem?_of_idxOf? hi, rfl⟩
  · obtain ⟨i, hi, rfl⟩ := Option.map_eq_some_iff.mp h
    exact Or.inr ⟨i, getElem?_of_idxOf? hi, rfl⟩

theorem place?_eq_none_iff : l.place? s = none ↔ s ∉ l.above ++ l.below := by
  rw [place?_eq, Option.or_eq_none_iff, Option.map_eq_none_iff, Option.map_eq_none_iff,
    List.idxOf?_eq_none_iff, List.idxOf?_eq_none_iff, List.mem_append, not_or]

theorem exists_locate (h : l.Lists x) : ∃ p, l.locate x = some p := by
  cases x with
  | slot s => exact Option.ne_none_iff_exists'.mp fun hnone => place?_eq_none_iff.mp hnone h
  | register i => exact ⟨_, rfl⟩

/-- **Capture registers lie below the slots.** -/
theorem registerPlace_lt (h : l.place? s = some p) (i : Nat) : l.registerPlace i < p := by
  rw [registerPlace]
  rcases place?_eq_some h with ⟨j, -, rfl⟩ | ⟨j, hj, rfl⟩
  · omega
  · obtain ⟨hlt, -⟩ := List.getElem?_eq_some_iff.mp hj
    omega

/-- **No two locations have the same place.** Slots are placed by their index among those that are
listed, and registers after the last of them. -/
theorem eq_of_locate (hx : l.locate x = some p) (hy : l.locate y = some p) : x = y := by
  cases x with
  | slot s =>
    cases y with
    | slot s' =>
      -- The sign of a place tells the list, and its size the index.
      rcases place?_eq_some hx with ⟨i, hi, rfl⟩ | ⟨i, hi, rfl⟩ <;>
        rcases place?_eq_some hy with ⟨j, hj, heq⟩ | ⟨j, hj, heq⟩
      · obtain rfl : i = j := by omega
        rw [Option.some.inj (hi.symm.trans hj)]
      · omega
      · omega
      · obtain rfl : i = j := by omega
        rw [Option.some.inj (hi.symm.trans hj)]
    | register j =>
      have hlt := registerPlace_lt hx j
      have heq := Option.some.inj hy
      omega
  | register i =>
    have heq := Option.some.inj hx
    cases y with
    | slot s =>
      have hlt := registerPlace_lt hy i
      omega
    | register j =>
      have heq' := Option.some.inj hy
      simp only [registerPlace] at heq heq'
      obtain rfl : i = j := by omega
      rfl

/-! ### Offsets -/

section Offsets

variable (hw : 0 < l.wordSize.toInt) (hp : l.Fits p)

include hw hp

/-- Where an offset is inside 32 bits, so is the place. -/
theorem Fits.lt : p < 2 ^ 31 := by
  obtain ⟨-, -, hlt⟩ := hp
  by_contra hcon
  have hmul : 2 ^ 31 * 1 ≤ p * l.wordSize.toInt :=
    Int.mul_le_mul (by omega) (by omega) (by omega) (by omega)
  omega

/-- There the product is exact. -/
theorem Fits.mul : ∃ o, Checked.mul (Int32.ofInt p) l.wordSize = .ok o ∧
    o.toInt = p * l.wordSize.toInt := by
  have hlt := Fits.lt hw hp
  obtain ⟨hgt, hlow, hhigh⟩ := hp
  refine ⟨Int32.ofInt (p * l.wordSize.toInt), ?_, Int32.toInt_ofInt_of_le hlow hhigh⟩
  rw [Checked.mul, Int32.toInt_ofInt_of_le (by omega) hlt]
  exact Checked.word_eq_ok_iff.mpr ⟨by omega, rfl⟩

/-- The offset of a slot is its place in bytes. -/
theorem Fits.tryOffset (hs : l.place? s = some p) :
    ∃ o, l.tryOffset s = .ok (some o) ∧ o.toInt = p * l.wordSize.toInt := by
  obtain ⟨o, ho, hvalue⟩ := Fits.mul hw hp
  refine ⟨o, ?_, hvalue⟩
  rw [Layout.tryOffset, hs]
  exact congrArg (some <$> ·) ho

omit hp in
/-- So is the offset of a capture register. -/
theorem Fits.registerOffset {i : Nat} (hi : l.Fits (l.registerPlace i)) :
    ∃ o, l.registerOffset i = .ok o ∧ o.toInt = l.registerPlace i * l.wordSize.toInt := by
  obtain ⟨o, ho, hvalue⟩ := Fits.mul hw hi
  have hlow := hi.1
  simp only [registerPlace] at hlow ho
  have hcount : Checked.size .add (l.below.length + 1 + i) = .ok (l.below.length + 1 + i) :=
    Checked.size_eq_ok_iff.mpr ⟨by omega, rfl⟩
  have hneg : Checked.neg (Int32.ofNat (l.below.length + 1 + i)) =
      .ok (Int32.ofInt (-(l.below.length + 1 + i : Nat))) := by
    rw [Checked.neg, Int32.toInt_ofNat_of_lt (by omega)]
    exact Checked.word_eq_ok_iff.mpr ⟨by omega, rfl⟩
  refine ⟨o, ?_, hvalue⟩
  rw [Layout.registerOffset, hcount]
  change (Checked.neg _).bind _ = _
  rw [hneg]
  exact ho

/-- **The offset of a location is its place in bytes.** Places are integers; it is the hypothesis
that they fit that keeps the product inside 32 bits. -/
theorem Fits.offsetOf (hx : l.locate x = some p) :
    ∃ o, l.offsetOf x = .ok (some o) ∧ o.toInt = p * l.wordSize.toInt := by
  cases x with
  | slot s => exact hp.tryOffset hw hx
  | register i =>
    obtain rfl := Option.some.inj hx
    obtain ⟨o, ho, hvalue⟩ := Fits.registerOffset hw hp
    exact ⟨o, congrArg (some <$> ·) ho, hvalue⟩

end Offsets

/-- A slot has no offset exactly if it is not listed. -/
theorem tryOffset_eq_none_iff : l.tryOffset s = .ok none ↔ s ∉ l.above ++ l.below := by
  rw [tryOffset, ← place?_eq_none_iff]
  cases l.place? s with
  | none => exact iff_of_true rfl rfl
  | some p =>
    refine iff_of_false (fun hcon => ?_) nofun
    simp only at hcon
    cases hmul : Checked.mul (Int32.ofInt p) l.wordSize with
    | error f =>
      rw [hmul] at hcon
      cases hcon
    | ok o =>
      rw [hmul] at hcon
      cases hcon

/-! ### Words do not overlap -/

section Apart

variable {p q : Int} {a b : Int32}

/-- A place further up is at least a word further up. -/
theorem mul_add_le_mul {w : Int} (hw : 0 ≤ w) (h : p < q) : p * w + w ≤ q * w := by
  have hle : (p + 1) * w ≤ q * w := Int.mul_le_mul_of_nonneg_right h hw
  rwa [Int.add_mul, Int.one_mul] at hle

variable (hw : 0 < l.wordSize.toInt)

include hw

/-- A location that the layout holds has an offset, a whole number of words. -/
theorem Holds.exists_offset (hx : l.Holds x) :
    ∃ o, l.offsetOf x = .ok (some o) ∧ l.wordSize.toInt ∣ o.toInt := by
  obtain ⟨p, hp⟩ := exists_locate hx.1
  obtain ⟨o, ho, hvalue⟩ := (hx.2 p hp).offsetOf hw hp
  exact ⟨o, ho, p, hvalue.trans (Int.mul_comm p _)⟩

/-- It is that of its place. -/
theorem Holds.toInt_offset (hx : l.Holds x) (hp : l.locate x = some p)
    (ha : l.offsetOf x = .ok (some a)) : a.toInt = p * l.wordSize.toInt := by
  obtain ⟨o, ho, hvalue⟩ := (hx.2 p hp).offsetOf hw hp
  obtain rfl := Option.some.inj (Except.ok.inj (ho.symm.trans ha))
  exact hvalue

/-- **Different locations are a word apart.** Their places are different integers, so they differ by
one at least, and offsets are places times the word size. -/
theorem Holds.apart (hx : l.Holds x) (hy : l.Holds y) (hne : x ≠ y)
    (ha : l.offsetOf x = .ok (some a)) (hb : l.offsetOf y = .ok (some b)) :
    l.wordSize.toInt ≤ |a.toInt - b.toInt| := by
  obtain ⟨p, hp⟩ := exists_locate hx.1
  obtain ⟨q, hq⟩ := exists_locate hy.1
  rw [hx.toInt_offset hw hp ha, hy.toInt_offset hw hq hb, le_abs]
  rcases lt_trichotomy p q with hlt | heq | hgt
  · have hle := mul_add_le_mul (Int.le_of_lt hw) hlt
    exact Or.inr (by omega)
  · exact absurd (eq_of_locate hp (heq ▸ hq)) hne
  · have hle := mul_add_le_mul (Int.le_of_lt hw) hgt
    exact Or.inl (by omega)

/-- **Every capture register lies below every slot.** -/
theorem Holds.register_below {i : Nat} (hs : l.Holds (.slot s)) (hi : l.Holds (.register i))
    (ha : l.offsetOf (.slot s) = .ok (some a)) (hb : l.offsetOf (.register i) = .ok (some b)) :
    b.toInt + l.wordSize.toInt ≤ a.toInt := by
  obtain ⟨p, hp⟩ := exists_locate hs.1
  rw [hs.toInt_offset hw hp ha, hi.toInt_offset hw rfl hb]
  exact mul_add_le_mul (Int.le_of_lt hw) (registerPlace_lt hp i)

end Apart

/-- A layout is refused exactly if a slot is listed twice. -/
theorem exists_error_new_iff {w : Int32} {above below : List Slot} :
    (∃ f, new w above below = .error f) ↔ ∃ s, 2 ≤ (above ++ below).count s := by
  have hnodup : ¬(above ++ below).Nodup ↔ ∃ s, 2 ≤ (above ++ below).count s := by
    rw [List.nodup_iff_count, not_forall]
    simp only [Nat.not_le, Nat.succ_le_iff]
  rw [← hnodup, ← isOk_new_iff (w := w)]
  cases new w above below with
  | error f => exact iff_of_true ⟨f, rfl⟩ nofun
  | ok l => exact iff_of_false nofun fun hcon => hcon ⟨l, rfl⟩

/-- **No two words of a frame overlap**, whatever the word size and the slots are. A layout is
refused exactly if a slot is listed twice. Otherwise exactly the slots that are not listed have no
offset; and of the slots that are, and the capture registers, as far as their offsets are inside 32
bits, each one has an offset that is a whole number of words, any two are at least a word apart, and
every register lies below every slot. -/
theorem offsets_apart {w : Int32} (hw : 0 < w) (above below : List Slot) :
    ((∃ f, new w above below = .error f) ↔ ∃ s, 2 ≤ (above ++ below).count s) ∧
    ∀ l, new w above below = .ok l →
      (∀ s, l.tryOffset s = .ok none ↔ s ∉ above ++ below) ∧
      (∀ x, l.Holds x → ∃ o, l.offsetOf x = .ok (some o) ∧ w.toInt ∣ o.toInt) ∧
      (∀ x y a b, l.Holds x → l.Holds y → x ≠ y → l.offsetOf x = .ok (some a) →
        l.offsetOf y = .ok (some b) → w.toInt ≤ |a.toInt - b.toInt|) ∧
      ∀ s i a b, l.Holds (.slot s) → l.Holds (.register i) → l.tryOffset s = .ok (some a) →
        l.registerOffset i = .ok b → b.toInt < a.toInt := by
  refine ⟨exists_error_new_iff, fun l hl => ?_⟩
  obtain ⟨rfl, rfl, rfl⟩ : l.wordSize = w ∧ l.above = above ∧ l.below = below := by
    rw [new] at hl
    split at hl
    · cases hl
    · obtain rfl := Except.ok.inj hl
      exact ⟨rfl, rfl, rfl⟩
  have hw : 0 < l.wordSize.toInt := Int32.lt_iff_toInt_lt.mp hw
  refine ⟨fun s => tryOffset_eq_none_iff, fun x hx => hx.exists_offset hw,
    fun x y a b hx hy hne ha hb => hx.apart hw hy hne ha hb, fun s i a b hs hi ha hb => ?_⟩
  have hle := hs.register_below hw hi ha (congrArg (some <$> ·) hb)
  omega

/-- They do not overlap either where the offsets of registers come to an end: with words of four
bytes, at the register whose offset is the least number of 32 bits. -/
theorem offsets_apart_last : (0 : Int32) < 4 ∧
    ∃ l, new 4 [.returnAddress] [.output] = .ok l ∧
      l.Holds (.slot .output) ∧ l.Holds (.register 536870910) ∧
      l.tryOffset .output = .ok (some (-4)) ∧ l.registerOffset 536870910 = .ok (-2147483648) ∧
      (4 : Int32).toInt ≤ |(-4 : Int32).toInt - (-2147483648 : Int32).toInt| := by
  obtain ⟨-, hall⟩ := offsets_apart (w := 4) (by decide) [.returnAddress] [.output]
  refine ⟨by decide, _, rfl, ?_⟩
  have hslot : (⟨4, [.returnAddress], [.output]⟩ : Layout).Holds (.slot .output) :=
    ⟨List.mem_cons_of_mem _ List.mem_cons_self, fun p hp => by
      obtain rfl := Option.some.inj hp
      decide⟩
  have hregister : (⟨4, [.returnAddress], [.output]⟩ : Layout).Holds (.register 536870910) :=
    ⟨trivial, fun p hp => by
      obtain rfl := Option.some.inj hp
      decide⟩
  obtain ⟨-, -, hapart, -⟩ := hall _ rfl
  exact ⟨hslot, hregister, rfl, rfl, hapart _ _ _ _ hslot hregister nofun rfl rfl⟩

end Layout

end NativeMatcher.Frame
