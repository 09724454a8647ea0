import NodeReplication.CyclicBuffer.Invariant

/-!
# Reservations and the contents of the buffer

An appender reserves `[tail, newTail)` in `finish_advance_tail` and then fills it with
`append_flip_bit`, one index at a time from `curIdx` on.

* `ReservationsDisjoint`, **`Reachable.reservationsDisjoint`**: the reservations of two distinct
  appenders share no index (what the source's `ranges_no_overlap` is after).
* `mapMinValue_le`, `exists_mapMinValue_eq`, `mapMinValue_skips_last`: `map_min_value m idx` is
  the least of `m 0, …, m (idx - 1)`, so the source's `map_min_value(local_heads,
  num_replicas - 1)` never looks at the last replica; `minLocalHead` takes all of them.
* `ContentsMatchAliveBits`, `append_overruns_reservation` and `AppendersExclusive`,
  `append_writes_other_reservation`: `append_flip_bit` never compares `curIdx` with the end of
  the reservation, so an appender writes past it, at and beyond the tail and into another
  appender's reservation.
* `FlipsInsideReservation`, `append_flips_outside_reservation`: an enabled `append_flip_bit` from
  a reachable state need not lie inside its node's reservation.
-/

namespace NodeReplication.CyclicBuffer

variable {σ : Type}

/-- Index `k` lies in the reservation a phase still has to fill. -/
def CombinerState.Reserves (k : ℕ) : CombinerState σ → Prop
  | .appending curIdx tail => curIdx ≤ k ∧ k < tail
  | _ => False

/-- No index is in the reservations of two distinct nodes. -/
def ReservationsDisjoint (s : State σ) : Prop :=
  ∀ i j, i ≠ j → ∀ ci cj, s.combinerState i = some ci → s.combinerState j = some cj →
    ∀ k, ci.Reserves k → ¬ cj.Reserves k

section Preservation

variable {s s' : State σ} {nodeId : ℕ}

/-- A node may take a phase whose reservation no other node's meets. -/
theorem ReservationsDisjoint.setCombiner (h : ReservationsDisjoint s) {c : CombinerState σ}
    (hc : ∀ k, c.Reserves k → ∀ m, m ≠ nodeId → ∀ cm, s.combinerState m = some cm →
      ¬ cm.Reserves k) :
    ReservationsDisjoint (s.setCombiner nodeId c) := by
  intro i j hij ci cj hi hj k hk hk'
  rcases State.setCombiner_combinerState_eq_some hi with ⟨rfl, rfl⟩ | ⟨hin, hi'⟩ <;>
    rcases State.setCombiner_combinerState_eq_some hj with ⟨rfl, rfl⟩ | ⟨hjn, hj'⟩
  · exact hij rfl
  · exact hc k hk j hjn cj hj' hk'
  · exact hc k hk' i hin ci hi' hk
  · exact h i j hij ci cj hi' hj' k hk hk'

/-- A phase without a reservation never meets one. -/
theorem ReservationsDisjoint.setIdle (h : ReservationsDisjoint s) {c : CombinerState σ}
    (hc : ∀ k, ¬ c.Reserves k) : ReservationsDisjoint (s.setCombiner nodeId c) :=
  h.setCombiner fun k hk => absurd hk (hc k)

/-- One step keeps the reservations disjoint: `finish_advance_tail` reserves from the tail,
past every reservation, and `append_flip_bit` shrinks its node's own. -/
theorem ReservationsDisjoint.next [Inhabited σ] {storedTypeInv : σ → ℤ → Bool}
    (h : ReservationsDisjoint s) (hi : Inv s) :
    ∀ {st : Step σ}, next storedTypeInv s st = some s' → ReservationsDisjoint s'
  | .readerDoStart _, hs => by
    obtain ⟨_, _, _, rfl⟩ := readerDoStart_eq_some hs; exact h.setIdle fun _ => id
  | .readerDoEnter _, hs => by
    obtain ⟨_, _, rfl⟩ := readerDoEnter_eq_some hs; exact h.setIdle fun _ => id
  | .readerDoGuard _, hs => by
    obtain ⟨_, _, _, _, _, rfl⟩ := readerDoGuard_eq_some hs; exact h.setIdle fun _ => id
  | .readerDoUnguard _, hs => by
    obtain ⟨_, _, _, _, _, rfl⟩ := readerDoUnguard_eq_some hs; exact h.setIdle fun _ => id
  | .readerDoFinish _, hs => by
    obtain ⟨_, _, _, _, _, _, rfl⟩ := readerDoFinish_eq_some hs; exact h.setIdle fun _ => id
  | .readerDoAbort _, hs => by
    obtain ⟨_, rfl⟩ := readerDoAbort_eq_some hs; exact h.setIdle fun _ => id
  | .initAdvanceHead _, hs => by
    obtain ⟨_, _, _, rfl⟩ := initAdvanceHead_eq_some hs; exact h.setIdle fun _ => id
  | .stepAdvanceHead _, hs => by
    obtain ⟨_, _, _, _, _, _, rfl⟩ := stepAdvanceHead_eq_some hs; exact h.setIdle fun _ => id
  | .abandonAdvanceHead _, hs => by
    obtain ⟨_, _, _, rfl⟩ := abandonAdvanceHead_eq_some hs; exact h.setIdle fun _ => id
  | .finishAdvanceHead _, hs => by
    obtain ⟨_, _, rfl⟩ := finishAdvanceHead_eq_some hs; exact h.setIdle fun _ => id
  | .initAdvanceTail _, hs => by
    obtain ⟨_, _, rfl⟩ := initAdvanceTail_eq_some hs; exact h.setIdle fun _ => id
  | .abandonAdvanceTail _, hs => by
    obtain ⟨_, _, rfl⟩ := abandonAdvanceTail_eq_some hs; exact h.setIdle fun _ => id
  | .finishAppending _, hs => by
    obtain ⟨_, _, rfl⟩ := finishAppending_eq_some hs; exact h.setIdle fun _ => id
  | .finishAdvanceTail _ _, hs => by
    obtain ⟨_, _, _, _, rfl⟩ := finishAdvanceTail_eq_some hs
    refine h.setCombiner fun k hk m _ cm hm hk' => ?_
    obtain ⟨_, _, hb⟩ := hi.combiner m cm hm
    rcases cm with _ | _ | _ | _ | ⟨c, t⟩
    all_goals simp only [CombinerState.Reserves] at hk hk'
    simp only [CombinerBounds] at hb
    omega
  | .appendFlipBit _ _, hs => by
    obtain ⟨_, _, _, hc, _, _, rfl⟩ := appendFlipBit_eq_some hs
    refine h.setCombiner fun k hk m hm cm hcm => h _ m (Ne.symm hm) _ cm hc hcm k ?_
    simp only [CombinerState.Reserves] at hk ⊢
    omega

end Preservation

theorem reservationsDisjoint_init (bufferSize numReplicas : ℕ) (contents : ℤ → Option σ) :
    ReservationsDisjoint (init bufferSize numReplicas contents) := by
  intro i _ _ ci _ hi _ k hk
  simp only [init] at hi
  split_ifs at hi
  cases hi
  exact absurd hk id

/-- **Reservations are disjoint in every reachable state.** -/
theorem Reachable.reservationsDisjoint [Inhabited σ] {storedTypeInv : σ → ℤ → Bool}
    {s : State σ} (h : Reachable storedTypeInv s) : ReservationsDisjoint s := by
  induction h with
  | init bs nr contents _ => exact reservationsDisjoint_init bs nr contents
  | next _ hr hs ih => exact ih.next hr.inv hs

/-- Nodes `0` and `1` reserve `[0, 1)` and `[1, 2)` one after the other, and both reservations
are open at once. -/
theorem reservationsDisjoint_two_appenders :
    ∃ s : State Unit, Reachable (fun _ _ => true) s ∧ s.combinerState 0 = some (.appending 0 1) ∧
      s.combinerState 1 = some (.appending 1 2) ∧ ReservationsDisjoint s := by
  have h₀ : Reachable (fun _ _ => true) _ := .init 2 2 _ (initialContents_unitContents 2)
  have hr := h₀.run (show run _ (init 2 2 (unitContents 2)) [.initAdvanceTail 0,
    .finishAdvanceTail 0 1, .initAdvanceTail 1, .finishAdvanceTail 1 2] = some _ from rfl)
  exact ⟨_, hr, rfl, rfl, Reachable.reservationsDisjoint hr⟩

/-! ## The least local head -/

/-- `mapMinValue m idx` is at most each of `m 0, …, m (idx - 1)`, and at most `m 0`. -/
theorem mapMinValue_le (m : ℕ → ℕ) : ∀ {idx j : ℕ}, j < max idx 1 → mapMinValue m idx ≤ m j
  | 0, j, hj => Nat.le_of_eq (congrArg m (by omega : 0 = j))
  | idx + 1, j, hj => by
    rw [mapMinValue]
    obtain hj | rfl : j < idx ∨ j = idx := by omega
    · exact Nat.le_trans (Nat.min_le_left _ _) (mapMinValue_le m (by omega))
    · exact Nat.min_le_right _ _

/-- `mapMinValue m idx` is one of `m 0, …, m (max idx 1 - 1)`. -/
theorem exists_mapMinValue_eq (m : ℕ → ℕ) : ∀ idx, ∃ j < max idx 1, mapMinValue m idx = m j
  | 0 => ⟨0, by decide, rfl⟩
  | idx + 1 => by
    rw [mapMinValue]
    obtain ⟨j, hj, hmin⟩ := exists_mapMinValue_eq m idx
    rcases Nat.le_total (mapMinValue m idx) (m idx) with h | h
    · exact ⟨j, by omega, (Nat.min_eq_left h).trans hmin⟩
    · exact ⟨idx, by omega, Nat.min_eq_right h⟩

/-- With two replicas whose last local head is the least, `map_min_value(m, 2 - 1)` compares
only `m 0` and misses `m 1`. -/
theorem mapMinValue_skips_last :
    ¬ ∀ (m : ℕ → ℕ) (n : ℕ), 1 ≤ n →
      (∀ j < n, mapMinValue m (n - 1) ≤ m j) ∧ ∃ j < n, mapMinValue m (n - 1) = m j :=
  fun h => absurd ((h (fun j => if j = 1 then 0 else 1) 2 (by decide)).1 1 (by decide))
    (by decide)

/-! ## Writing past a reservation -/

/-- The least local head of replicas `0, …, numReplicas - 1`: `mapMinValue` over all of them. -/
def minLocalHead (s : State σ) : ℕ :=
  mapMinValue (fun n => (s.localHeads n).getD 0) s.numReplicas

/-- The contents and the alive bits as `inv_buffer_contents` and `upcoming_bits_are_not_alive`
describe them, with the least local head of all replicas. -/
def ContentsMatchAliveBits (s : State σ) : Prop :=
  (∀ i : ℤ, (s.tail : ℤ) - s.bufferSize ≤ i → i < s.tail →
    ((s.contents i).isSome ↔ EntryIsAlive s.aliveBits i s.bufferSize ∨ i < minLocalHead s)) ∧
  (∀ i : ℤ, (s.tail : ℤ) ≤ i → s.contents i = none) ∧
  ∀ i : ℤ, (s.tail : ℤ) ≤ i → i < minLocalHead s + s.bufferSize →
    ¬ EntryIsAlive s.aliveBits i s.bufferSize

/-- One replica and one slot: node `0` reserves the empty range `[0, 0)` and still deposits an
entry at index `0`, the tail. -/
theorem append_overruns_reservation :
    ∃ s : State Unit, Reachable (fun _ _ => true) s ∧ s.tail = 0 ∧ s.contents 0 = some () ∧
      ¬ ContentsMatchAliveBits s :=
  ⟨_, (Reachable.init 1 1 _ (initialContents_unitContents 1)).run
    (show run _ (init 1 1 (unitContents 1))
      [.initAdvanceTail 0, .finishAdvanceTail 0 0, .appendFlipBit 0 ()] = some _ from rfl),
    rfl, rfl, fun h => absurd (h.2.1 0 (by decide)) (by decide)⟩

/-- What `combiner_state_valid` and `ranges_no_overlap` promise an appender `i` against every
other node `j`: its reservation lies between its local head and the tail, holds no entry and
no alive slot, and meets neither another reservation nor a guarded index. -/
def AppendersExclusive (s : State σ) : Prop :=
  ∀ i j, i ≠ j → ∀ c t, s.combinerState i = some (.appending c t) →
    (∃ v, s.localHeads i = some v ∧ v ≤ c) ∧ t ≤ s.tail ∧ (s.tail : ℤ) - s.bufferSize ≤ c ∧
    (∀ k : ℕ, c ≤ k → k < t →
      s.contents k = none ∧ ¬ EntryIsAlive s.aliveBits k s.bufferSize) ∧
    (∀ c' t', s.combinerState j = some (.appending c' t') →
      ∀ k, ¬ (c ≤ k ∧ k < t ∧ c' ≤ k ∧ k < t')) ∧
    ∀ start end' cur val, s.combinerState j = some (.reading (.guard start end' cur val)) →
      ¬ (c ≤ cur ∧ cur < t)

/-- Two replicas and one slot: node `0` reserves `[0, 0)`, node `1` reserves `[0, 1)`, and
node `0` deposits at index `0`, inside node `1`'s reservation. -/
theorem append_writes_other_reservation :
    ∃ s : State Unit, Reachable (fun _ _ => true) s ∧
      s.combinerState 1 = some (.appending 0 1) ∧ s.contents 0 = some () ∧
      ¬ AppendersExclusive s :=
  ⟨_, (Reachable.init 1 2 _ (initialContents_unitContents 1)).run
    (show run _ (init 1 2 (unitContents 1))
      [.initAdvanceTail 0, .finishAdvanceTail 0 0, .initAdvanceTail 1, .finishAdvanceTail 1 1,
        .appendFlipBit 0 ()] = some _ from rfl),
    rfl, rfl, fun h => absurd ((h 1 0 (by decide) 0 1 rfl).2.2.2.1 0 le_rfl (by decide)).1
      (by decide)⟩

/-- What the spec asks of every `append_flip_bit` step of node `nodeId`: the node fills its
reservation `[curIdx, t)` with `t ≤ tail`, index `curIdx` holds no entry yet, and its slot's
alive bit still marks the previous generation, so that the step flips it. -/
def FlipsInsideReservation (s : State σ) (nodeId : ℕ) : Prop :=
  ∃ curIdx t, s.combinerState nodeId = some (.appending curIdx t) ∧ curIdx < t ∧ t ≤ s.tail ∧
    s.contents curIdx = none ∧ ¬ EntryIsAlive s.aliveBits curIdx s.bufferSize

/-- One replica and one slot: node `0` reserves the empty range `[0, 0)`, and its
`append_flip_bit` is still enabled. -/
theorem append_flips_outside_reservation :
    ∃ s : State Unit, Reachable (fun _ _ => true) s ∧
      s.combinerState 0 = some (.appending 0 0) ∧
      (appendFlipBit s 0 (fun _ _ => true) ()).isSome ∧ ¬ FlipsInsideReservation s 0 :=
  ⟨_, (Reachable.init 1 1 _ (initialContents_unitContents 1)).run
    (show run _ (init 1 1 (unitContents 1))
      [.initAdvanceTail 0, .finishAdvanceTail 0 0] = some _ from rfl),
    rfl, rfl, fun ⟨_, _, hc, hlt, _⟩ => by
      obtain ⟨⟩ := hc
      exact absurd hlt (Nat.lt_irrefl 0)⟩

end NodeReplication.CyclicBuffer
