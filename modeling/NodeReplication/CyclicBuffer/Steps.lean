import NodeReplication.CyclicBuffer.Defs

/-!
# What each transition of the cyclic buffer does

One inversion lemma per transition: from `t s … = some s'`, the guards the transition checked
and the state `s'` it built. Invariant proofs use these and never unfold a transition.
-/

namespace NodeReplication.CyclicBuffer

variable {σ : Type} {s s' : State σ} {nodeId : ℕ}

theorem State.setCombiner_combinerState_eq_some {c c' : CombinerState σ} {m : ℕ}
    (h : (s.setCombiner nodeId c).combinerState m = some c') :
    (m = nodeId ∧ c' = c) ∨ (m ≠ nodeId ∧ s.combinerState m = some c') := by
  by_cases hm : m = nodeId
  · subst hm
    rw [State.setCombiner_combinerState, Function.update_same, Option.some.injEq] at h
    exact .inl ⟨rfl, h.symm⟩
  · rw [State.setCombiner_combinerState, Function.update_noteq hm] at h
    exact .inr ⟨hm, h⟩

section Reader

theorem readerDoStart_eq_some (h : readerDoStart s nodeId = some s') :
    ∃ localHead, s.localHeads nodeId = some localHead ∧ s.combinerState nodeId = some .idle ∧
      s' = s.setCombiner nodeId (.reading (.starting localHead)) := by
  unfold readerDoStart at h
  split at h
  · exact ⟨_, ‹_›, ‹_›, (Option.some.inj h).symm⟩
  · cases h

theorem readerDoEnter_eq_some (h : readerDoEnter s nodeId = some s') :
    ∃ start, s.combinerState nodeId = some (.reading (.starting start)) ∧
      s' = s.setCombiner nodeId (.reading (.range start s.tail start)) := by
  unfold readerDoEnter at h
  split at h
  · exact ⟨_, ‹_›, (Option.some.inj h).symm⟩
  · cases h

theorem readerDoGuard_eq_some [Inhabited σ] (h : readerDoGuard s nodeId = some s') :
    ∃ start end' cur, s.combinerState nodeId = some (.reading (.range start end' cur)) ∧
      s.aliveBits (cur % s.bufferSize) = some (cur / s.bufferSize % 2 == 0) ∧
      s' = s.setCombiner nodeId (.reading (.guard start end' cur ((s.contents cur).getD default))) := by
  unfold readerDoGuard at h
  split at h
  · split at h
    · exact ⟨_, _, _, ‹_›, ‹_›, (Option.some.inj h).symm⟩
    · cases h
  · cases h

theorem readerDoUnguard_eq_some (h : readerDoUnguard s nodeId = some s') :
    ∃ start end' cur val, s.combinerState nodeId = some (.reading (.guard start end' cur val)) ∧
      s' = s.setCombiner nodeId (.reading (.range start end' (cur + 1))) := by
  unfold readerDoUnguard at h
  split at h
  · exact ⟨_, _, _, _, ‹_›, (Option.some.inj h).symm⟩
  · cases h

theorem readerDoFinish_eq_some (h : readerDoFinish s nodeId = some s') :
    ∃ start end' cur localHead,
      s.combinerState nodeId = some (.reading (.range start end' cur)) ∧
      s.localHeads nodeId = some localHead ∧ s' = { s.setCombiner nodeId .idle with
        localHeads := Function.update s.localHeads nodeId (some end') } := by
  unfold readerDoFinish at h
  split at h
  · exact ⟨_, _, _, _, ‹_›, ‹_›, (Option.some.inj h).symm⟩
  · cases h

theorem readerDoAbort_eq_some (h : readerDoAbort s nodeId = some s') :
    ((∃ start, s.combinerState nodeId = some (.reading (.starting start))) ∨
      ∃ start end' cur, s.combinerState nodeId = some (.reading (.range start end' cur))) ∧
      s' = s.setCombiner nodeId .idle := by
  unfold readerDoAbort at h
  split at h
  · exact ⟨.inl ⟨_, ‹_›⟩, (Option.some.inj h).symm⟩
  · exact ⟨.inr ⟨_, _, _, ‹_›⟩, (Option.some.inj h).symm⟩
  · cases h

end Reader

section Head

theorem initAdvanceHead_eq_some (h : initAdvanceHead s nodeId = some s') :
    ∃ localHead0, s.localHeads nodeId = some localHead0 ∧ s.combinerState nodeId = some .idle ∧
      s' = s.setCombiner nodeId (.advancingHead 1 localHead0) := by
  unfold initAdvanceHead at h
  split at h
  · exact ⟨_, ‹_›, ‹_›, (Option.some.inj h).symm⟩
  · cases h

theorem stepAdvanceHead_eq_some (h : stepAdvanceHead s nodeId = some s') :
    ∃ idx minHead localHeadAtIdx,
      s.combinerState nodeId = some (.advancingHead idx minHead) ∧ idx < s.numReplicas ∧
      s.localHeads idx = some localHeadAtIdx ∧
      s' = s.setCombiner nodeId (.advancingHead (idx + 1) (min minHead localHeadAtIdx)) := by
  unfold stepAdvanceHead at h
  split at h
  · split at h
    · split at h
      · exact ⟨_, _, _, ‹_›, ‹_›, ‹_›, (Option.some.inj h).symm⟩
      · cases h
    · cases h
  · cases h

theorem abandonAdvanceHead_eq_some (h : abandonAdvanceHead s nodeId = some s') :
    ∃ idx minHead, s.combinerState nodeId = some (.advancingHead idx minHead) ∧
      s' = s.setCombiner nodeId .idle := by
  unfold abandonAdvanceHead at h
  split at h
  · exact ⟨_, _, ‹_›, (Option.some.inj h).symm⟩
  · cases h

theorem finishAdvanceHead_eq_some (h : finishAdvanceHead s nodeId = some s') :
    ∃ minHead, s.combinerState nodeId = some (.advancingHead s.numReplicas minHead) ∧
      s' = { s.setCombiner nodeId .idle with head := minHead } := by
  unfold finishAdvanceHead at h
  split at h
  · split at h
    · subst_vars
      exact ⟨_, ‹_›, (Option.some.inj h).symm⟩
    · cases h
  · cases h

end Head

section Tail

theorem initAdvanceTail_eq_some (h : initAdvanceTail s nodeId = some s') :
    (∃ localHead0, s.localHeads 0 = some localHead0) ∧ s.combinerState nodeId = some .idle ∧
      s' = s.setCombiner nodeId (.advancingTail s.head) := by
  unfold initAdvanceTail at h
  split at h
  · exact ⟨⟨_, ‹_›⟩, ‹_›, (Option.some.inj h).symm⟩
  · cases h

theorem abandonAdvanceTail_eq_some (h : abandonAdvanceTail s nodeId = some s') :
    ∃ observedHead, s.combinerState nodeId = some (.advancingTail observedHead) ∧
      s' = s.setCombiner nodeId .idle := by
  unfold abandonAdvanceTail at h
  split at h
  · exact ⟨_, ‹_›, (Option.some.inj h).symm⟩
  · cases h

theorem finishAdvanceTail_eq_some {newTail : ℕ} (h : finishAdvanceTail s nodeId newTail = some s') :
    ∃ observedHead, s.combinerState nodeId = some (.advancingTail observedHead) ∧
      s.tail ≤ newTail ∧ newTail ≤ observedHead + s.bufferSize ∧
      s' = { s.setCombiner nodeId (.appending s.tail newTail) with
        tail := newTail
        contents := fun i => if Withdrawn s newTail i then none else s.contents i } := by
  unfold finishAdvanceTail at h
  split at h
  · split at h
    · obtain ⟨h1, h2⟩ := ‹_ ∧ _›
      exact ⟨_, ‹_›, h1, h2, (Option.some.inj h).symm⟩
    · cases h
  · cases h

theorem appendFlipBit_eq_some {storedTypeInv : σ → ℤ → Bool} {deposited : σ}
    (h : appendFlipBit s nodeId storedTypeInv deposited = some s') :
    ∃ curIdx tail bit, s.combinerState nodeId = some (.appending curIdx tail) ∧
      s.aliveBits (curIdx % s.bufferSize) = some bit ∧ storedTypeInv deposited curIdx = true ∧
      s' = { s.setCombiner nodeId (.appending (curIdx + 1) tail) with
        aliveBits := Function.update s.aliveBits (curIdx % s.bufferSize)
          (some (curIdx / s.bufferSize % 2 == 0))
        contents := Function.update s.contents curIdx (some deposited) } := by
  unfold appendFlipBit at h
  split at h
  · split at h
    · split at h
      · exact ⟨_, _, _, ‹_›, ‹_›, ‹_›, (Option.some.inj h).symm⟩
      · cases h
    · cases h
  · cases h

theorem finishAppending_eq_some (h : finishAppending s nodeId = some s') :
    ∃ tail, s.combinerState nodeId = some (.appending tail tail) ∧
      s' = s.setCombiner nodeId .idle := by
  unfold finishAppending at h
  split at h
  · split at h
    · subst_vars
      exact ⟨_, ‹_›, (Option.some.inj h).symm⟩
    · cases h
  · cases h

end Tail

/-- A step changes the phase of its own node only. -/
theorem combinerState_next_of_ne [Inhabited σ] {storedTypeInv : σ → ℤ → Bool} {n : ℕ} :
    ∀ {st : Step σ}, next storedTypeInv s st = some s' → n ≠ st.nodeId →
      s'.combinerState n = s.combinerState n
  | .readerDoStart _, hs, hn => by
    obtain ⟨_, _, _, rfl⟩ := readerDoStart_eq_some hs; exact Function.update_noteq hn _ _
  | .readerDoEnter _, hs, hn => by
    obtain ⟨_, _, rfl⟩ := readerDoEnter_eq_some hs; exact Function.update_noteq hn _ _
  | .readerDoGuard _, hs, hn => by
    obtain ⟨_, _, _, _, _, rfl⟩ := readerDoGuard_eq_some hs; exact Function.update_noteq hn _ _
  | .readerDoUnguard _, hs, hn => by
    obtain ⟨_, _, _, _, _, rfl⟩ := readerDoUnguard_eq_some hs; exact Function.update_noteq hn _ _
  | .readerDoFinish _, hs, hn => by
    obtain ⟨_, _, _, _, _, _, rfl⟩ := readerDoFinish_eq_some hs
    exact Function.update_noteq hn _ _
  | .readerDoAbort _, hs, hn => by
    obtain ⟨_, rfl⟩ := readerDoAbort_eq_some hs; exact Function.update_noteq hn _ _
  | .initAdvanceHead _, hs, hn => by
    obtain ⟨_, _, _, rfl⟩ := initAdvanceHead_eq_some hs; exact Function.update_noteq hn _ _
  | .stepAdvanceHead _, hs, hn => by
    obtain ⟨_, _, _, _, _, _, rfl⟩ := stepAdvanceHead_eq_some hs
    exact Function.update_noteq hn _ _
  | .abandonAdvanceHead _, hs, hn => by
    obtain ⟨_, _, _, rfl⟩ := abandonAdvanceHead_eq_some hs; exact Function.update_noteq hn _ _
  | .finishAdvanceHead _, hs, hn => by
    obtain ⟨_, _, rfl⟩ := finishAdvanceHead_eq_some hs; exact Function.update_noteq hn _ _
  | .initAdvanceTail _, hs, hn => by
    obtain ⟨_, _, rfl⟩ := initAdvanceTail_eq_some hs; exact Function.update_noteq hn _ _
  | .abandonAdvanceTail _, hs, hn => by
    obtain ⟨_, _, rfl⟩ := abandonAdvanceTail_eq_some hs; exact Function.update_noteq hn _ _
  | .finishAdvanceTail _ _, hs, hn => by
    obtain ⟨_, _, _, _, rfl⟩ := finishAdvanceTail_eq_some hs; exact Function.update_noteq hn _ _
  | .appendFlipBit _ _, hs, hn => by
    obtain ⟨_, _, _, _, _, _, rfl⟩ := appendFlipBit_eq_some hs; exact Function.update_noteq hn _ _
  | .finishAppending _, hs, hn => by
    obtain ⟨_, _, rfl⟩ := finishAppending_eq_some hs; exact Function.update_noteq hn _ _

end NodeReplication.CyclicBuffer
