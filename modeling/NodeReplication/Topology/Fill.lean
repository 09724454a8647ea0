import NodeReplication.Topology.Cores
import Mathlib.Data.List.Perm.Subperm

/-!
# NUMAFill and Sequential

`NUMAFill` takes `ht1`, one CPU per core, sorted by socket, then `ht2`, the remaining CPUs,
sorted by socket, and keeps the first `howMany`. `Sequential` sorts the CPUs by socket and then
by OS index, and keeps the first `howMany`.

* **`allocate_numaFill`**: below the capacity bound of `Vec::with_capacity`, `NUMAFill` returns
  as many distinct CPUs of the machine as asked and available, one per core first in order of
  socket, and a second CPU of a core only once every core has one;
  `allocate_numaFill_capacity_overflow`: past that bound it returns nothing;
* `sequentialLe_total`, `sequentialLe_trans`, **`allocate_sequential`**: below the same bound,
  `Sequential` returns the first `howMany` usable CPUs in order of socket and OS index;
* `sequential_doubles_up_core`: on a machine that numbers the two hyperthreads of a core
  consecutively, `Sequential` puts two threads on one core while another core of the socket is
  idle, against the source's comment that it avoids hyperthreads until all cores are used.
-/

namespace NodeReplication.Topology

/-- **NUMAFill.** On a machine of distinct CPUs and for a `howMany` that `Vec::with_capacity`
accepts, `NUMAFill` returns `min howMany N` distinct CPUs of the machine, `N` the number of CPUs with hyperthreads and the number of cores without. Without
hyperthreads no two share a core; with them, two share a core only if every core has a CPU in
the answer. Its first entries, up to one per core, are on distinct cores in order of socket. -/
theorem allocate_numaFill (data : List CpuInfo) (hnd : data.Nodup) (howMany : ℕ)
    (hcap : VecFits howMany) (useHt : Bool) :
    ∃ c, (MachineTopology.mk data).allocate .numaFill howMany useHt = some c ∧
      c.length =
        min howMany (if useHt then data.length else (data.map CpuInfo.core).dedup.length) ∧
      c.Nodup ∧ (∀ x ∈ c, x ∈ data) ∧
      (useHt = false → (c.map CpuInfo.core).Nodup) ∧
      (useHt = true → ∀ x ∈ c, ∀ y ∈ c, x ≠ y → x.core = y.core →
        ∀ z ∈ data, ∃ w ∈ c, w.core = z.core) ∧
      ((c.take (data.map CpuInfo.core).dedup.length).map CpuInfo.core).Nodup ∧
      (c.take (data.map CpuInfo.core).dedup.length).Pairwise fun a b => a.socket ≤ b.socket := by
  set F := (MachineTopology.mk data).usableCpus useHt
  set m := (data.map CpuInfo.core).dedup.length
  set A := sortByKey CpuInfo.socket (coreRepresentatives F)
  set B := sortByKey CpuInfo.socket (hyperThreads F)
  have hF : F.Nodup := MachineTopology.nodup_usableCpus hnd useHt
  have hABF : List.Perm (A ++ B) F := ((sortByKey_perm _ _).append (sortByKey_perm _ _)).trans
    (coreRepresentatives_append_hyperThreads_perm hF)
  have hFlen : F.length = if useHt then data.length else m := by
    cases useHt
    · exact length_coreRepresentatives data
    · rfl
  -- `ht1` has one CPU of each of the `m` cores, in order of socket
  have hA : A.length = m := by
    rw [(sortByKey_perm _ _).length_eq, length_coreRepresentatives]
    cases useHt
    · exact length_dedup_cores_coreRepresentatives data
    · rfl
  have hAcores : (A.map CpuInfo.core).Nodup :=
    ((sortByKey_perm _ _).map _).nodup_iff.mpr (coreRepresentatives_cores_nodup F)
  have hsub : ((A ++ B).take howMany).Sublist (A ++ B) := List.take_sublist _ _
  have hfirst : (((A ++ B).take howMany).take m).Sublist A := by
    rw [List.take_take, List.take_append_of_le_length (by omega)]
    exact List.take_sublist _ _
  refine ⟨(A ++ B).take howMany, if_pos hcap, by rw [List.length_take, hABF.length_eq, hFlen],
    hsub.nodup (hABF.nodup_iff.mpr hF), fun x hx => MachineTopology.mem_of_mem_usableCpus
      (hABF.subset (hsub.subset hx)), ?_, ?_, (hfirst.map _).nodup hAcores,
    (sortByKey_sorted _ _).sublist hfirst⟩
  · -- without hyperthreads the CPUs are on distinct cores
    rintro rfl
    exact (hsub.map _).nodup ((hABF.map _).nodup_iff.mpr (coreRepresentatives_cores_nodup data))
  · -- a second CPU of a core comes from `ht2`, after all of `ht1`
    rintro rfl x hx y hy hxy hcore z hz
    by_cases hm : howMany ≤ A.length
    · rw [List.take_append_of_le_length hm] at hx hy
      exact absurd (List.inj_on_of_nodup_map hAcores (List.take_subset _ _ hx)
        (List.take_subset _ _ hy) hcore) hxy
    · obtain ⟨w, hw, hwz⟩ := exists_coreRepresentative (show z ∈ F from hz)
      refine ⟨w, ?_, hwz⟩
      rw [List.take_append_eq_append_take, List.take_of_length_le (by omega)]
      exact List.mem_append_left _ ((sortByKey_perm _ _).mem_iff.mpr hw)

/-- A machine of two sockets with one core of two hyperthreads each: `NUMAFill` with
hyperthreads puts three threads on both cores first. -/
theorem allocate_numaFill_two_sockets :
    ∃ data : List CpuInfo, data.length = 4 ∧
      ∃ c, (MachineTopology.mk data).allocate .numaFill 3 true = some c ∧
        c.length = min 3 (if true then data.length else (data.map CpuInfo.core).dedup.length) ∧
        c.Nodup ∧ (∀ x ∈ c, x ∈ data) ∧
        (true = false → (c.map CpuInfo.core).Nodup) ∧
        (true = true → ∀ x ∈ c, ∀ y ∈ c, x ≠ y → x.core = y.core →
          ∀ z ∈ data, ∃ w ∈ c, w.core = z.core) ∧
        ((c.take (data.map CpuInfo.core).dedup.length).map CpuInfo.core).Nodup ∧
        (c.take (data.map CpuInfo.core).dedup.length).Pairwise
          fun a b => a.socket ≤ b.socket :=
  ⟨[⟨none, 0, 0, 0, 0, 0, 0⟩, ⟨none, 1, 1, 1, 1, 1, 1⟩, ⟨none, 0, 0, 2, 0, 0, 0⟩,
    ⟨none, 1, 1, 3, 1, 1, 1⟩], rfl, allocate_numaFill _ (by decide) 3 (by decide) true⟩

/-- Past the capacity bound there is no answer: for 128102389400760776 threads, one more than
the 72-byte records that `isize::MAX` bytes hold, `Vec::with_capacity` panics before `NUMAFill`
runs, even on a machine of one CPU. -/
theorem allocate_numaFill_capacity_overflow :
    ¬ ∃ c, (MachineTopology.mk [⟨none, 0, 0, 0, 0, 0, 0⟩]).allocate .numaFill
      128102389400760776 true = some c := by
  simp [MachineTopology.allocate_of_not_vecFits _ _ _ (show ¬ VecFits 128102389400760776 by decide)]

/-! ## Sequential -/

theorem sequentialLe_total (a b : CpuInfo) : sequentialLe a b ∨ sequentialLe b a := by
  unfold sequentialLe
  split_ifs <;> omega

theorem sequentialLe_trans {a b c : CpuInfo} (hab : sequentialLe a b) (hbc : sequentialLe b c) :
    sequentialLe a c := by
  unfold sequentialLe at *
  split_ifs at * <;> omega

/-- **Sequential takes the first CPUs in order.** On a machine of distinct CPUs and for a
`howMany` that `Vec::with_capacity` accepts, `Sequential` returns `min howMany N` distinct usable CPUs, `N` the number of usable ones, in order of socket
and, on one socket, of OS index; no usable CPU it leaves out comes before one it takes. -/
theorem allocate_sequential (t : MachineTopology) (hnd : t.data.Nodup) (howMany : ℕ)
    (hcap : VecFits howMany) (useHt : Bool) :
    ∃ c, t.allocate .sequential howMany useHt = some c ∧
      c.length = min howMany (t.usableCpus useHt).length ∧ c.Nodup ∧
      (∀ x ∈ c, x ∈ t.usableCpus useHt) ∧
      (c.Pairwise fun a b => a.socket < b.socket ∨ (a.socket = b.socket ∧ a.cpu ≤ b.cpu)) ∧
      ∀ y ∈ t.usableCpus useHt, y ∉ c → ∀ x ∈ c, sequentialLe x y := by
  set F := t.usableCpus useHt
  have hperm := List.perm_insertionSort sequentialLe F
  have hsorted : (F.insertionSort sequentialLe).Pairwise sequentialLe :=
    @List.sorted_insertionSort _ sequentialLe _ ⟨sequentialLe_total⟩
      ⟨fun _ _ _ => sequentialLe_trans⟩ F
  rw [← List.take_append_drop howMany (F.insertionSort sequentialLe), List.pairwise_append]
    at hsorted
  refine ⟨_, if_pos hcap, by rw [List.length_take, hperm.length_eq],
    (List.take_sublist _ _).nodup (hperm.nodup_iff.mpr (MachineTopology.nodup_usableCpus hnd useHt)),
    fun x hx => hperm.subset (List.take_subset _ _ hx), hsorted.1.imp fun {a b} h => ?_,
    fun y hy hyc x hx => hsorted.2.2 x hx y ?_⟩
  · unfold sequentialLe at h
    split_ifs at h <;> omega
  · have hy' := hperm.symm.subset hy
    rw [← List.take_append_drop howMany (F.insertionSort sequentialLe)] at hy'
    exact (List.mem_append.mp hy').resolve_left hyc

/-- One socket with CPUs `0, …, 3` listed in reverse order: three threads with hyperthreads. -/
theorem allocate_sequential_reversed :
    ∃ t : MachineTopology, t.data = [⟨none, 0, 1, 3, 1, 1, 0⟩, ⟨none, 0, 1, 2, 1, 1, 0⟩,
        ⟨none, 0, 0, 1, 0, 0, 0⟩, ⟨none, 0, 0, 0, 0, 0, 0⟩] ∧ t.data.Nodup ∧
      ∃ c, t.allocate .sequential 3 true = some c ∧
        c.length = min 3 (t.usableCpus true).length ∧ c.Nodup ∧
        (∀ x ∈ c, x ∈ t.usableCpus true) ∧
        (c.Pairwise fun a b => a.socket < b.socket ∨ (a.socket = b.socket ∧ a.cpu ≤ b.cpu)) ∧
        ∀ y ∈ t.usableCpus true, y ∉ c → ∀ x ∈ c, sequentialLe x y :=
  ⟨⟨_⟩, rfl, by decide, allocate_sequential _ (by decide) 3 (by decide) true⟩

/-- One socket with two cores whose hyperthreads have consecutive OS indices, CPUs `0` and `1`
on core `0` and CPUs `2` and `3` on core `1`: `Sequential` puts two threads on core `0` while
core `1` is idle. -/
theorem sequential_doubles_up_core :
    ∃ data : List CpuInfo, data.Nodup ∧
      ∃ c, (MachineTopology.mk data).allocate .sequential 2 true = some c ∧
        ∃ x ∈ c, ∃ y ∈ c, x ≠ y ∧ x.core = y.core ∧
          ∃ z ∈ data, z.socket = x.socket ∧ ∀ w ∈ c, w.core ≠ z.core :=
  ⟨[⟨none, 0, 0, 0, 0, 0, 0⟩, ⟨none, 0, 0, 1, 0, 0, 0⟩, ⟨none, 0, 1, 2, 1, 1, 0⟩,
    ⟨none, 0, 1, 3, 1, 1, 0⟩], by decide, _, rfl, by decide⟩

end NodeReplication.Topology
