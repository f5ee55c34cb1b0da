import MotionControl.Ring.Window

/-!
# The ring read from its tail

Three wrapping cursors are hard to reason about; a list is not. `Ring.order` lists the slots in
use in the order in which the cursors pass them, starting at the tail, and `Ring.layout` what is
in them. Read that way,

* replacing a slot is `List.set`,
* moving the tail on takes the first slot to the end,

and a number `k` in the list stands for the slot `Ring.place k` of the ring. All wrapping is dealt
with here, with one comparison and one subtraction per slot number.
-/

namespace MotionControl.Ring

variable {n : Nat}

/-! ## Slot numbers -/

/-- The slot that lies `k` steps after the tail. -/
def place (r : Ring n) (k : Nat) : Nat :=
  if r.tail + k < r.len then r.tail + k else r.tail + k - r.len

theorem place_zero {r : Ring n} (ht : r.tail < r.len) : r.place 0 = r.tail := by
  simp [place, ht]

theorem place_lt {r : Ring n} (ht : r.tail < r.len) {k : Nat} (hk : k ≤ r.len) :
    r.place k < r.len := by
  unfold place
  split <;> omega

theorem place_lt_built {r : Ring n} (ht : r.tail < r.len) {k : Nat} (hk : k ≤ r.len) :
    r.place k < n :=
  Nat.lt_of_lt_of_le (place_lt ht hk) r.len_le

theorem place_inj {r : Ring n} {i j : Nat} (hi : i < r.len) (hj : j < r.len) :
    r.place i = r.place j ↔ i = j := by
  refine ⟨fun h => ?_, fun h => by rw [h]⟩
  unfold place at h
  split at h <;> split at h <;> omega

theorem exists_place_eq {r : Ring n} (ht : r.tail < r.len) {i : Nat} (hi : i < r.len) :
    ∃ k, k < r.len ∧ r.place k = i := by
  refine ⟨if r.tail ≤ i then i - r.tail else i + r.len - r.tail, ?_, ?_⟩
  · split <;> omega
  · unfold place
    split <;> split <;> omega

theorem next_place {r : Ring n} (ht : r.tail < r.len) {k : Nat} (hk : k < r.len) :
    r.next (r.place k) = r.place (k + 1) := by
  unfold next place
  split <;> split <;> split <;> omega

theorem prev_place {r : Ring n} (ht : r.tail < r.len) {k : Nat} (hk : k < r.len) :
    r.prev (r.place (k + 1)) = r.place k := by
  unfold prev place
  split <;> split <;> split <;> omega

theorem distance_eq {r : Ring n} {i j : Nat} (hi : i < r.len) (hj : j < r.len) :
    r.distance i j = if i ≤ j then j - i else j + r.len - i := by
  unfold distance
  split
  · next h =>
    rw [show j + r.len - i = j - i + r.len by omega, Nat.add_mod_right]
    exact Nat.mod_eq_of_lt (by omega)
  · exact Nat.mod_eq_of_lt (by omega)

theorem distance_place {r : Ring n} (ht : r.tail < r.len) {i j : Nat} (hij : i ≤ j)
    (hj : j < r.len) : r.distance (r.place i) (r.place j) = j - i := by
  rw [distance_eq (place_lt ht (by omega)) (place_lt ht (by omega))]
  unfold place
  split <;> split <;> split <;> omega

theorem distance_place_wrap {r : Ring n} (ht : r.tail < r.len) {i j : Nat} (hij : j < i)
    (hi : i < r.len) : r.distance (r.place i) (r.place j) = j + r.len - i := by
  rw [distance_eq (place_lt ht (by omega)) (place_lt ht (by omega))]
  unfold place
  split <;> split <;> split <;> omega

theorem distance_tail_place {r : Ring n} (ht : r.tail < r.len) {k : Nat} (hk : k < r.len) :
    r.distance r.tail (r.place k) = k := by
  have h := distance_place ht (Nat.zero_le k) hk
  rw [place_zero ht] at h
  exact h

/-! ## The slots as a list -/

/-- The numbers of the slots in use, read from the tail on. -/
def order (r : Ring n) : List Nat := (List.range r.len).map r.place

/-- The slots in use, read from the tail on. -/
def layout (r : Ring n) : List Slot := r.order.map r.slot

/-- The locked slots, read from the tail on. -/
def lockedSlots (r : Ring n) : List Nat := r.order.filter fun i => r.state i = .locked

theorem mem_order {r : Ring n} (ht : r.tail < r.len) {i : Nat} : i ∈ r.order ↔ i < r.len := by
  simp only [order, List.mem_map, List.mem_range]
  refine ⟨?_, exists_place_eq ht⟩
  rintro ⟨k, hk, rfl⟩
  exact place_lt ht (Nat.le_of_lt hk)

theorem nodup_order (r : Ring n) : r.order.Nodup := by
  rw [order, List.Nodup, List.pairwise_map]
  refine List.Pairwise.imp_of_mem ?_ List.nodup_range
  intro i j hi hj hne h
  exact hne ((place_inj (List.mem_range.mp hi) (List.mem_range.mp hj)).mp h)

@[simp] theorem length_layout (r : Ring n) : r.layout.length = r.len := by
  simp [layout, order]

theorem getElem_layout {r : Ring n} {k : Nat} (hk : k < r.layout.length) :
    r.layout[k] = r.slot (r.place k) := by
  simp [layout, order]

theorem layout_eq_of_slots {r : Ring n} {es : List Slot} (hes : es.length = r.len)
    (h : ∀ k, k < r.len → (hk : k < es.length) → r.slot (r.place k) = es[k]) : r.layout = es := by
  apply List.ext_getElem
  · rw [length_layout, hes]
  · intro k hk hk'
    rw [getElem_layout]
    exact h k (by rw [length_layout] at hk; exact hk) hk'

theorem layout_setSlot {r : Ring n} (ht : r.tail < r.len) {k : Nat} (hk : k < r.len) (s : Slot) :
    (r.setSlot (r.place k) s).layout = r.layout.set k s := by
  apply layout_eq_of_slots
  · rw [List.length_set, length_layout]
    rfl
  · intro j hj hj'
    have hj : j < r.len := hj
    change (r.setSlot (r.place k) s).slot (r.place j) = _
    rw [slot_setSlot r (place_lt_built ht (Nat.le_of_lt hk)), List.getElem_set, getElem_layout]
    simp only [place_inj hk hj]

theorem slot_setSlot_of_len_le {r : Ring n} (ht : r.tail < r.len) {k : Nat} (hk : k < r.len)
    {i : Nat} (hi : r.len ≤ i) (s : Slot) : (r.setSlot (r.place k) s).slot i = r.slot i := by
  have hlt := place_lt ht (Nat.le_of_lt hk)
  rw [slot_setSlot r (place_lt_built ht (Nat.le_of_lt hk)), if_neg (by omega)]

theorem lockedSlots_setSlot {r : Ring n} (ht : r.tail < r.len) {k : Nat} (hk : k < r.len)
    {s : Slot} (hs : s.state = .locked ↔ r.state (r.place k) = .locked) :
    (r.setSlot (r.place k) s).lockedSlots = r.lockedSlots := by
  change r.order.filter (fun i => decide ((r.setSlot (r.place k) s).state i = .locked)) = _
  apply List.filter_congr
  intro i hi
  unfold state
  rw [slot_setSlot r (place_lt_built ht (Nat.le_of_lt hk))]
  split
  · next h =>
    subst h
    exact decide_eq_decide.mpr hs
  · rfl

/-! ## Moving the tail -/

theorem place_tail_next {r : Ring n} (ht : r.tail < r.len) {k : Nat} (hk : k < r.len) :
    { r with tail := r.next r.tail }.place k = r.place (k + 1) := by
  have h2 := r.two_le_len
  unfold place next
  dsimp only
  split <;> split <;> split <;> omega

theorem order_tail_next {r : Ring n} (ht : r.tail < r.len) :
    { r with tail := r.next r.tail }.order = r.order.tail ++ [r.tail] := by
  have h2 := r.two_le_len
  apply List.ext_getElem
  · simp [order]
    omega
  · intro k hk hk'
    have hk : k < r.len := by simpa [order] using hk
    simp only [order, List.getElem_map, List.getElem_range, List.getElem_append,
      place_tail_next ht hk, List.length_tail, List.length_map, List.length_range,
      List.getElem_tail]
    split
    · rfl
    · -- behind the last slot the cursor is back at the old tail
      have hwrap : r.place (k + 1) = r.tail := by
        unfold place
        split <;> omega
      rw [hwrap, List.getElem_singleton]

theorem order_eq_cons {r : Ring n} (ht : r.tail < r.len) : r.order = r.tail :: r.order.tail := by
  have h2 := r.two_le_len
  have hne : r.order ≠ [] := by
    intro h
    have : r.order.length = 0 := by rw [h]; rfl
    simp [order] at this
    omega
  have hhead : r.order.head hne = r.tail := by
    simp only [order, List.head_map, List.head_range]
    exact place_zero ht
  rw [← hhead]
  exact (List.cons_head_tail hne).symm

theorem layout_tail_next {r : Ring n} (ht : r.tail < r.len) {e : Slot} {es : List Slot}
    (h : r.layout = e :: es) : { r with tail := r.next r.tail }.layout = es ++ [e] := by
  rw [layout, order_eq_cons ht, List.map_cons, List.cons.injEq] at h
  obtain ⟨he, hes⟩ := h
  change { r with tail := r.next r.tail }.order.map r.slot = _
  rw [order_tail_next ht, List.map_append, List.map_singleton, he, hes]

/-- Locks elsewhere stay as they are when the tail passes a slot that is not locked. -/
theorem lockedSlots_tail_next {r : Ring n} (ht : r.tail < r.len) (h : r.state r.tail ≠ .locked) :
    { r with tail := r.next r.tail }.lockedSlots = r.lockedSlots := by
  change ({ r with tail := r.next r.tail } : Ring n).order.filter
    (fun i => decide (r.state i = .locked)) = _
  rw [order_tail_next ht, lockedSlots, order_eq_cons ht]
  simp [h]

end MotionControl.Ring
