import NodeReplication.Topology.Defs

/-!
# One CPU per core

`allocate` builds `ht1` by sorting the CPUs by core and keeping the first CPU of each core, and
`ht2` from the CPUs left over; `sockets` sorts and deduplicates the socket ids.

* `mem_of_mem_coreRepresentatives`, `nodup_coreRepresentatives`: `ht1` is drawn from the CPUs;
* `coreRepresentatives_cores_nodup`, `exists_coreRepresentative`, `length_coreRepresentatives`:
  `ht1` holds exactly one CPU of every core;
* **`coreRepresentatives_append_hyperThreads_perm`**: `ht1 ++ ht2` is a permutation of the CPUs;
* `length_sockets`: when the sockets are `0, …, S - 1`, `sockets` has `S` entries;
* **`sockets_nodes_sorted`**: `sockets` and `nodes` list each value once, in increasing order;
* `cpusOfNode`, **`cpusOnNode_eq_cpusOfNode_iff`**: `cpus_on_node` compares the socket with the
  node id, so it returns the CPUs of the node exactly when every CPU's node is its socket.
-/

namespace NodeReplication.Topology

variable {cpus : List CpuInfo}

theorem coreRepresentatives_sublist (cpus : List CpuInfo) :
    List.Sublist (coreRepresentatives cpus) (sortByKey CpuInfo.core cpus) :=
  dedupBy_sublist _ _

theorem mem_of_mem_coreRepresentatives {x : CpuInfo} (h : x ∈ coreRepresentatives cpus) :
    x ∈ cpus :=
  (sortByKey_perm _ cpus).subset ((coreRepresentatives_sublist cpus).subset h)

theorem nodup_coreRepresentatives (h : cpus.Nodup) : (coreRepresentatives cpus).Nodup :=
  (coreRepresentatives_sublist cpus).nodup ((sortByKey_perm _ cpus).nodup_iff.mpr h)

theorem coreRepresentatives_cores_nodup (cpus : List CpuInfo) :
    ((coreRepresentatives cpus).map CpuInfo.core).Nodup :=
  List.pairwise_map.mpr ((dedupBy_strict CpuInfo.core _ (sortByKey_sorted _ cpus)).imp
    Nat.ne_of_lt)

theorem exists_coreRepresentative {x : CpuInfo} (hx : x ∈ cpus) :
    ∃ y ∈ coreRepresentatives cpus, y.core = x.core :=
  dedupBy_keys CpuInfo.core _ x ((sortByKey_perm _ cpus).mem_iff.mpr hx)

/-- `ht1` covers exactly the cores of the CPUs. -/
theorem mem_map_core_coreRepresentatives {c : ℕ} :
    c ∈ (coreRepresentatives cpus).map CpuInfo.core ↔ c ∈ cpus.map CpuInfo.core := by
  simp only [List.mem_map]
  refine ⟨fun ⟨y, hy, hc⟩ => ⟨y, mem_of_mem_coreRepresentatives hy, hc⟩, fun ⟨x, hx, hc⟩ => ?_⟩
  obtain ⟨y, hy, hyc⟩ := exists_coreRepresentative hx
  exact ⟨y, hy, hyc.trans hc⟩

/-- Two lists of CPUs with the same cores have equally many distinct cores. -/
theorem length_dedup_cores_coreRepresentatives (cpus : List CpuInfo) :
    ((coreRepresentatives cpus).map CpuInfo.core).dedup.length =
      (cpus.map CpuInfo.core).dedup.length :=
  ((List.perm_ext_iff_of_nodup (List.nodup_dedup _) (List.nodup_dedup _)).mpr fun c => by
    simp only [List.mem_dedup, mem_map_core_coreRepresentatives]).length_eq

/-- **`ht1` has one CPU per core.** -/
theorem length_coreRepresentatives (cpus : List CpuInfo) :
    (coreRepresentatives cpus).length = (cpus.map CpuInfo.core).dedup.length := by
  rw [← length_dedup_cores_coreRepresentatives,
    List.Nodup.dedup (coreRepresentatives_cores_nodup cpus), List.length_map]

/-- **`ht1 ++ ht2` is a permutation of the CPUs.** -/
theorem coreRepresentatives_append_hyperThreads_perm (h : cpus.Nodup) :
    List.Perm (coreRepresentatives cpus ++ hyperThreads cpus) cpus := by
  have hht : ∀ x, x ∈ hyperThreads cpus ↔ x ∈ cpus ∧ x ∉ coreRepresentatives cpus := fun x => by
    simp [hyperThreads]
  refine (List.perm_ext_iff_of_nodup (List.nodup_append.mpr ⟨nodup_coreRepresentatives h,
    h.filter _, fun x hx hx' => ((hht x).mp hx').2 hx⟩) h).mpr fun x => ?_
  show x ∈ coreRepresentatives cpus ++ hyperThreads cpus ↔ x ∈ cpus
  rw [List.mem_append, hht]
  by_cases hx : x ∈ coreRepresentatives cpus
  · exact ⟨fun _ => mem_of_mem_coreRepresentatives hx, fun _ => .inl hx⟩
  · exact ⟨fun h => h.elim (absurd · hx) And.left, fun h => .inr ⟨h, hx⟩⟩

namespace MachineTopology

variable {t : MachineTopology}

theorem nodup_usableCpus (h : t.data.Nodup) : ∀ useHt, (t.usableCpus useHt).Nodup
  | true => h
  | false => nodup_coreRepresentatives h

theorem mem_of_mem_usableCpus {x : CpuInfo} : ∀ {useHt}, x ∈ t.usableCpus useHt → x ∈ t.data
  | true, hx => hx
  | false, hx => mem_of_mem_coreRepresentatives hx

theorem length_usableCpus_le : ∀ useHt, (t.usableCpus useHt).length ≤ t.data.length
  | true => le_rfl
  | false => (coreRepresentatives_sublist t.data).length_le.trans (sortByKey_perm _ _).length_eq.le

/-- The sockets `0, …, S - 1` are listed once each. -/
theorem length_sockets {S : ℕ} (h : ∀ i, i < S ↔ ∃ x ∈ t.data, x.socket = i) :
    t.sockets.length = S := by
  obtain ⟨hs, hmem⟩ := dedupBy_sortByKey_id (t.data.map CpuInfo.socket)
  simpa using ((List.perm_ext_iff_of_nodup (hs.imp Nat.ne_of_lt) (List.nodup_range S)).mpr
    fun i => by rw [List.mem_range, h i, ← List.mem_map]; exact hmem i).length_eq

/-- **The machine's sockets and nodes.** `sockets` and `nodes` list each socket and each NUMA
node of the machine once, in increasing order. -/
theorem sockets_nodes_sorted (t : MachineTopology) :
    t.sockets.Pairwise (· < ·) ∧ (∀ i, i ∈ t.sockets ↔ ∃ x ∈ t.data, x.socket = i) ∧
      t.nodes.Pairwise (· < ·) ∧
      ∀ i, i ∈ t.nodes ↔ ∃ x ∈ t.data, x.node.elim 0 NodeInfo.node = i := by
  obtain ⟨hs, hsm⟩ := dedupBy_sortByKey_id (t.data.map CpuInfo.socket)
  obtain ⟨hn, hnm⟩ := dedupBy_sortByKey_id (t.data.map fun c => c.node.elim 0 NodeInfo.node)
  exact ⟨hs, fun i => (hsm i).trans List.mem_map, hn, fun i => (hnm i).trans List.mem_map⟩

/-- The CPUs of NUMA node `node`, a CPU without a node counting as node `0` as in `nodes`. -/
def cpusOfNode (t : MachineTopology) (node : ℕ) : List CpuInfo :=
  t.data.filter fun c => c.node.elim 0 NodeInfo.node == node

/-- **`cpus_on_node` answers by socket.** It returns the CPUs of NUMA node `node`, for every
`node`, exactly on the machines where each CPU's node is its socket. -/
theorem cpusOnNode_eq_cpusOfNode_iff (t : MachineTopology) :
    (∀ node, t.cpusOnNode node = t.cpusOfNode node) ↔
      ∀ x ∈ t.data, x.node.elim 0 NodeInfo.node = x.socket := by
  refine ⟨fun h x hx => ?_, fun h node => List.filter_congr fun x hx => by simp [h x hx]⟩
  have hmem : x ∈ t.cpusOnNode x.socket := List.mem_filter.mpr ⟨hx, beq_self_eq_true _⟩
  rw [h] at hmem
  exact beq_iff_eq.mp (List.mem_filter.mp hmem).2

end MachineTopology

end NodeReplication.Topology
