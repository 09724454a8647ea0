import Mathlib.Data.List.Sort
import Mathlib.Data.List.Dedup

/-!
# The CPU allocator of the benchmarks

`MachineTopology::allocate` of the benchmark utilities picks the CPUs that benchmark threads are
pinned to. It first drops the hyperthreads when asked to (`use_ht` false), then either
spreads the threads over the sockets (`Interleave`), fills the sockets in order of socket and
OS index (`Sequential`), or takes one CPU per core before any second CPU of a core (`NUMAFill`).

* `CpuInfo`, `ThreadMapping`, `MachineTopology`;
* `dedupBy` (`Vec::dedup_by`) and `sortByKey` (the stable `sort_by_key`), with the lemmas that
  later proofs use instead of unfolding them: a dedup is a sublist, keeps every key, and turns a
  list sorted by key into one strictly sorted by key;
* `MachineTopology.sockets`, `coreRepresentatives` and `hyperThreads` (`ht1` and `ht2`),
  `interleaveLoop` and `MachineTopology.allocate`, which is `none` where the source panics;
* the other queries of `MachineTopology`: `cores`, `nodes`, `cpusOnNode`, `cpusOnSocket`.

Rust's `u64` and `usize` values are natural numbers, with the one bound the source runs into:
`Vec::with_capacity(how_many)` panics once `how_many` records of 72 bytes pass `isize::MAX`
(`VecFits`). Below that bound the only arithmetic, `how_many + num_sockets - 1`, cannot
overflow a 64-bit `usize`.
-/

namespace NodeReplication.Topology

/-- NUMA node information (`NodeInfo`). -/
structure NodeInfo where
  node : ℕ
  memory : ℕ
  deriving DecidableEq, Repr

/-- A processing unit of the machine (`CpuInfo`): its NUMA node, socket, core, OS index and
caches. `allocate` compares whole records, so every field is kept. -/
structure CpuInfo where
  node : Option NodeInfo
  socket : ℕ
  core : ℕ
  cpu : ℕ
  l1 : ℕ
  l2 : ℕ
  l3 : ℕ
  deriving DecidableEq, Repr

/-- How threads are placed on the CPUs (`ThreadMapping`). -/
inductive ThreadMapping where
  | none
  | sequential
  | numaFill
  | interleave
  deriving DecidableEq, Repr

/-- The CPUs of the machine (`MachineTopology`). -/
structure MachineTopology where
  data : List CpuInfo

/-- The size in bytes of a `CpuInfo`: an `Option<NodeInfo>` of 24 bytes and six `u64`s. -/
def cpuInfoSize : ℕ := 72

/-- `isize::MAX` on a 64-bit target, `2⁶³ - 1`, the most bytes one allocation may ask for. -/
def isizeMax : ℕ := 9223372036854775807

/-- `n` CPU records fit in one allocation. `Vec::<CpuInfo>::with_capacity(n)` panics with a
capacity overflow otherwise, and no vector of CPU records, `data` included, is longer. -/
def VecFits (n : ℕ) : Prop := n * cpuInfoSize ≤ isizeMax

instance (n : ℕ) : Decidable (VecFits n) := inferInstanceAs (Decidable (_ ≤ _))

theorem VecFits.mono {m n : ℕ} (h : VecFits n) (hmn : m ≤ n) : VecFits m :=
  Nat.le_trans (Nat.mul_le_mul_right _ hmn) h

/-! ## Sorting and deduplication -/

section Lists

variable {α : Type}

/-- `Vec::dedup_by` after the element `prev` has been kept: an element is dropped when
`sameBucket` holds between it and the last element kept. -/
def dedupByFrom (sameBucket : α → α → Bool) (prev : α) : List α → List α
  | [] => []
  | a :: l =>
    if sameBucket a prev then dedupByFrom sameBucket prev l else a :: dedupByFrom sameBucket a l

/-- `Vec::dedup_by`: keep the first element of every run of elements in one bucket. -/
def dedupBy (sameBucket : α → α → Bool) : List α → List α
  | [] => []
  | a :: l => a :: dedupByFrom sameBucket a l

/-- `sort_by_key`, a stable sort by a natural-number key. -/
def sortByKey (key : α → ℕ) (l : List α) : List α :=
  l.insertionSort fun a b => key a ≤ key b

theorem dedupByFrom_sublist (sameBucket : α → α → Bool) :
    ∀ (prev : α) (l : List α), List.Sublist (dedupByFrom sameBucket prev l) l
  | _, [] => .slnil
  | prev, a :: l => by
    unfold dedupByFrom
    split
    · exact (dedupByFrom_sublist sameBucket prev l).cons a
    · exact (dedupByFrom_sublist sameBucket a l).cons₂ a

theorem dedupBy_sublist (sameBucket : α → α → Bool) :
    ∀ l : List α, List.Sublist (dedupBy sameBucket l) l
  | [] => .slnil
  | a :: l => (dedupByFrom_sublist sameBucket a l).cons₂ a

variable (key : α → ℕ)

/-- Every key of the input is the last kept one's or a kept element's. -/
theorem dedupByFrom_keys (prev : α) :
    ∀ l : List α, ∀ x ∈ l, key x = key prev ∨
      ∃ y ∈ dedupByFrom (fun a b => key a == key b) prev l, key y = key x
  | [], _, hx => absurd hx (List.not_mem_nil _)
  | a :: l, x, hx => by
    unfold dedupByFrom
    split
    case isTrue h =>
      rcases List.mem_cons.mp hx with rfl | hx
      · exact .inl (beq_iff_eq.mp h)
      · exact dedupByFrom_keys prev l x hx
    case isFalse =>
      refine .inr ?_
      rcases List.mem_cons.mp hx with rfl | hx
      · exact ⟨x, List.mem_cons_self _ _, rfl⟩
      · rcases dedupByFrom_keys a l x hx with h | ⟨y, hy, h⟩
        · exact ⟨a, List.mem_cons_self _ _, h.symm⟩
        · exact ⟨y, List.mem_cons_of_mem _ hy, h⟩

/-- **A dedup keeps every key.** -/
theorem dedupBy_keys : ∀ (l : List α), ∀ x ∈ l,
    ∃ y ∈ dedupBy (fun a b => key a == key b) l, key y = key x
  | [], _, hx => absurd hx (List.not_mem_nil _)
  | a :: l, x, hx => by
    rcases List.mem_cons.mp hx with rfl | hx
    · exact ⟨x, List.mem_cons_self _ _, rfl⟩
    · rcases dedupByFrom_keys key a l x hx with h | ⟨y, hy, h⟩
      · exact ⟨a, List.mem_cons_self _ _, h.symm⟩
      · exact ⟨y, List.mem_cons_of_mem _ hy, h⟩

/-- On a list sorted by key whose keys are at least the last kept one's, the dedup keeps
elements with strictly increasing keys above it. -/
theorem dedupByFrom_strict (prev : α) :
    ∀ l : List α, l.Pairwise (fun a b => key a ≤ key b) → (∀ x ∈ l, key prev ≤ key x) →
      (dedupByFrom (fun a b => key a == key b) prev l).Pairwise (fun a b => key a < key b) ∧
        ∀ y ∈ dedupByFrom (fun a b => key a == key b) prev l, key prev < key y
  | [], _, _ => ⟨.nil, fun _ hy => absurd hy (List.not_mem_nil _)⟩
  | a :: l, hs, hp => by
    obtain ⟨ha, hl⟩ := List.pairwise_cons.mp hs
    unfold dedupByFrom
    split
    case isTrue => exact dedupByFrom_strict prev l hl fun x hx => hp x (List.mem_cons_of_mem _ hx)
    case isFalse h =>
      have hlt : key prev < key a :=
        Nat.lt_of_le_of_ne (hp a (List.mem_cons_self _ _)) fun he => h (beq_iff_eq.mpr he.symm)
      obtain ⟨hrs, hgt⟩ := dedupByFrom_strict a l hl ha
      exact ⟨List.pairwise_cons.mpr ⟨hgt, hrs⟩, fun y hy => by
        rcases List.mem_cons.mp hy with rfl | hy
        · exact hlt
        · exact Nat.lt_trans hlt (hgt y hy)⟩

/-- **A dedup of a list sorted by key is strictly sorted by key.** -/
theorem dedupBy_strict :
    ∀ l : List α, l.Pairwise (fun a b => key a ≤ key b) →
      (dedupBy (fun a b => key a == key b) l).Pairwise (fun a b => key a < key b)
  | [], _ => .nil
  | a :: l, hs => by
    obtain ⟨ha, hl⟩ := List.pairwise_cons.mp hs
    obtain ⟨hrs, hgt⟩ := dedupByFrom_strict key a l hl ha
    exact List.pairwise_cons.mpr ⟨hgt, hrs⟩

theorem sortByKey_perm (l : List α) : List.Perm (sortByKey key l) l :=
  List.perm_insertionSort _ l

theorem sortByKey_sorted (l : List α) : (sortByKey key l).Pairwise fun a b => key a ≤ key b :=
  @List.sorted_insertionSort α (fun a b => key a ≤ key b) _ ⟨fun _ _ => Nat.le_total _ _⟩
    ⟨fun _ _ _ => Nat.le_trans⟩ l

end Lists

/-- Sorting numbers and dropping repeats, as `sockets` and `nodes` do, lists each value once, in
increasing order. -/
theorem dedupBy_sortByKey_id (l : List ℕ) :
    (dedupBy (fun a b => a == b) (sortByKey id l)).Pairwise (· < ·) ∧
      ∀ i, i ∈ dedupBy (fun a b => a == b) (sortByKey id l) ↔ i ∈ l := by
  refine ⟨dedupBy_strict id _ (sortByKey_sorted id l), fun i => ⟨fun hi =>
    (sortByKey_perm id l).subset ((dedupBy_sublist _ _).subset hi), fun hi => ?_⟩⟩
  obtain ⟨j, hj, rfl⟩ := dedupBy_keys id _ i ((sortByKey_perm id l).mem_iff.mpr hi)
  exact hj

/-! ## The allocator -/

/-- Two CPUs share a core. -/
def sameCore (a b : CpuInfo) : Bool := a.core == b.core

/-- `ht1` of `allocate`: the first CPU of every core, after a stable sort by core. -/
def coreRepresentatives (cpus : List CpuInfo) : List CpuInfo :=
  dedupBy sameCore (sortByKey CpuInfo.core cpus)

/-- `ht2` of `allocate` before it is sorted: the CPUs that are not in `ht1`, in their order. -/
def hyperThreads (cpus : List CpuInfo) : List CpuInfo :=
  cpus.filter fun cpu => !(coreRepresentatives cpus).contains cpu

/-- The comparator of `Sequential`, as the relation "not after": by socket, then by OS index. -/
def sequentialLe (a b : CpuInfo) : Prop :=
  if a.socket ≠ b.socket then a.socket < b.socket else a.cpu ≤ b.cpu

instance : DecidableRel sequentialLe := fun a b =>
  inferInstanceAs (Decidable (ite (a.socket ≠ b.socket) _ _))

/-- The loop of `Interleave` over the CPUs in allocation order: stop at `howMany` CPUs, skip a
CPU whose socket already has `cpusPerSocket`, and push the others on their socket's list;
`none` where `allocated[cpu.socket]` is out of range. -/
def interleaveLoop (howMany cpusPerSocket : ℕ) :
    List (List CpuInfo) → ℕ → List CpuInfo → Option (List (List CpuInfo))
  | allocated, _, [] => some allocated
  | allocated, numAllocCpus, cpu :: cpus =>
    if numAllocCpus = howMany then some allocated
    else
      match allocated[cpu.socket]? with
      | none => none
      | some onSocket =>
        if onSocket.length = cpusPerSocket then
          interleaveLoop howMany cpusPerSocket allocated numAllocCpus cpus
        else
          interleaveLoop howMany cpusPerSocket (allocated.set cpu.socket (onSocket ++ [cpu]))
            (numAllocCpus + 1) cpus

namespace MachineTopology

/-- The sockets of the machine, sorted, without repetition (`sockets`). -/
def sockets (t : MachineTopology) : List ℕ :=
  dedupBy (fun a b => a == b) (sortByKey id (t.data.map CpuInfo.socket))

/-- The number of processing units (`cores`). -/
def cores (t : MachineTopology) : ℕ :=
  t.data.length

/-- The NUMA nodes of the machine, sorted, without repetition, a CPU without a node counting as
node `0` (`nodes`). -/
def nodes (t : MachineTopology) : List ℕ :=
  dedupBy (fun a b => a == b) (sortByKey id (t.data.map fun c => c.node.elim 0 NodeInfo.node))

/-- `cpus_on_node`: it compares each CPU's socket, not its node, with `node`. -/
def cpusOnNode (t : MachineTopology) (node : ℕ) : List CpuInfo :=
  t.data.filter fun c => c.socket == node

/-- `cpus_on_socket`. -/
def cpusOnSocket (t : MachineTopology) (socket : ℕ) : List CpuInfo :=
  t.data.filter fun c => c.socket == socket

/-- The CPUs `allocate` chooses from: all of them, or one per core without hyperthreads. -/
def usableCpus (t : MachineTopology) (useHt : Bool) : List CpuInfo :=
  if useHt then t.data else coreRepresentatives t.data

@[simp] theorem usableCpus_true (t : MachineTopology) : t.usableCpus true = t.data := rfl

@[simp] theorem usableCpus_false (t : MachineTopology) :
    t.usableCpus false = coreRepresentatives t.data := rfl

/-- `allocate`: the CPUs for `howMany` threads under `strategy`; `none` where the source panics
(the capacity overflow of `Vec::with_capacity(how_many)`, which comes first under every
strategy, then a division by zero, an index out of range, or the final `assert!` of
`Interleave`). -/
def allocate (t : MachineTopology) (strategy : ThreadMapping) (howMany : ℕ) (useHt : Bool) :
    Option (List CpuInfo) :=
  if VecFits howMany then
    let cpus := t.usableCpus useHt
    match strategy with
    | .none => some []
    | .interleave =>
      let ht1 := coreRepresentatives cpus ++ sortByKey CpuInfo.core (hyperThreads cpus)
      let numSockets := t.sockets.length
      if numSockets = 0 then none
      else
        let cpusPerSocket := (howMany + numSockets - 1) / numSockets
        match interleaveLoop howMany cpusPerSocket (List.replicate numSockets []) 0 ht1 with
        | none => none
        | some allocated =>
          let c := allocated.flatten
          if c.length = howMany then some c else none
    | .sequential => some ((cpus.insertionSort sequentialLe).take howMany)
    | .numaFill =>
      some ((sortByKey CpuInfo.socket (coreRepresentatives cpus) ++
        sortByKey CpuInfo.socket (hyperThreads cpus)).take howMany)
  else none

/-- Past the capacity bound `allocate` panics, whatever the strategy. -/
theorem allocate_of_not_vecFits (t : MachineTopology) (strategy : ThreadMapping) {howMany : ℕ}
    (useHt : Bool) (h : ¬ VecFits howMany) : t.allocate strategy howMany useHt = none :=
  if_neg h

end MachineTopology

end NodeReplication.Topology
