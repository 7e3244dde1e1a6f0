import Mathlib.Data.Finmap
import Mathlib.Data.Fintype.EquivFin
import Mathlib.Algebra.Order.Ring.Nat
import Mathlib.Algebra.Group.Pointwise.Set.BigOperators
import Mathlib.Algebra.Group.Pointwise.Set.Lattice

/-!
# A separation logic for programs with `new` and `delete`

A heap maps addresses to the objects allocated there. A program reads, writes, allocates and
deletes objects; it faults when it reaches for an address where nothing is allocated, so that a
program without a fault has no use after a delete and no double delete. Which address `new` gives
is up to an allocator with a state of its own, which may hand out a deleted address again.

An assertion is a set of collections of blocks, and the separating conjunction is the pointwise
sum of such sets: with it Mathlib has the empty heap as `0`, iterated conjunctions as sums over
lists and finite types, and their laws. `Triple P m Q` owns exactly the blocks of `P` before and of
`Q` after, whatever else is allocated, so that a program from the empty heap to the empty heap
leaks nothing. The rules with `_bind` execute a program symbolically, one operation at a time.
-/

open scoped Pointwise

namespace SepLogic

abbrev Addr := Nat

/-- What is allocated, by address. -/
abbrev Heap (α : Type) := Finmap fun _ : Addr => α

/-- An allocated object with its address. -/
abbrev Block (α : Type) := Sigma fun _ : Addr => α

/-- How a program goes wrong. -/
inductive Fault where
  -- nothing is allocated at the address
  | dangling (a : Addr)
  -- there is an object, of another type
  | mistyped (a : Addr)
  | thrown (msg : String)
  deriving DecidableEq, Repr

/-- Where the next object is allocated: anywhere that is free. -/
structure Allocator (α : Type) where
  State : Type
  start : State
  next : State → Heap α → Addr × State
  next_notMem : ∀ σ h, (next σ h).1 ∉ h

/-- The lowest free address, so that deleted addresses are handed out again. -/
def Allocator.lowest (α : Type) : Allocator α where
  State := Unit
  start := ()
  next _ h := (Nat.find (Infinite.exists_notMem_finset h.keys), ())
  next_notMem _ h := by
    rw [← Finmap.mem_keys]
    exact Nat.find_spec (Infinite.exists_notMem_finset h.keys)

/-- The heap, and the allocator's own state. -/
structure Memory {α : Type} (A : Allocator α) where
  heap : Heap α
  allocator : A.State

/-- Programs over the memory of an allocator. -/
abbrev Mem {α : Type} (A : Allocator α) := StateT (Memory A) (Except Fault)

section Operations

variable {α β : Type} {A : Allocator α}

def Memory.empty (A : Allocator α) : Memory A := ⟨∅, A.start⟩

/-- Allocate `v`. The allocator chooses a free address. -/
def new (v : α) : Mem A Addr := fun s =>
  let (a, σ) := A.next s.allocator s.heap
  .ok (a, ⟨s.heap.insert a v, σ⟩)

/-- Read an object. -/
def load (a : Addr) : Mem A α := fun s =>
  match s.heap.lookup a with
  | some v => .ok (v, s)
  | none => .error (.dangling a)

/-- Overwrite an object. -/
def store (a : Addr) (v : α) : Mem A Unit := fun s =>
  if a ∈ s.heap then .ok ((), { s with heap := s.heap.insert a v }) else .error (.dangling a)

/-- Free an object. -/
def delete (a : Addr) : Mem A Unit := fun s =>
  if a ∈ s.heap then .ok ((), { s with heap := s.heap.erase a }) else .error (.dangling a)

/-- Read an object of the type that `view` selects. -/
def loadAs (view : α → Option β) (a : Addr) : Mem A β := do
  match view (← load a) with
  | some b => pure b
  | none => throw (.mistyped a)

end Operations

/-! ## Blocks of a heap -/

section Blocks

variable {α : Type} {h : Heap α} {a : Addr} {v : α} {F : Multiset (Block α)}

theorem lookup_of_entries (hF : h.entries = ⟨a, v⟩ ::ₘ F) : h.lookup a = some v :=
  Finmap.lookup_eq_some_iff.mpr (by rw [hF]; exact Multiset.mem_cons_self _ _)

theorem mem_of_entries (hF : h.entries = ⟨a, v⟩ ::ₘ F) : a ∈ h :=
  Finmap.mem_of_lookup_eq_some (lookup_of_entries hF)

/-- Deleting a block leaves the others. -/
theorem entries_erase (hF : h.entries = ⟨a, v⟩ ::ₘ F) : (h.erase a).entries = F := by
  have hins : ((h.erase a).insert a v).entries = h.entries := by
    congr 1
    refine Finmap.ext_lookup fun x => ?_
    by_cases hx : x = a
    · rw [hx, Finmap.lookup_insert, lookup_of_entries hF]
    · rw [Finmap.lookup_insert_of_ne _ hx, Finmap.lookup_erase_ne hx]
  rw [Finmap.entries_insert_of_notMem Finmap.notMem_erase_self, hF] at hins
  exact (Multiset.cons_inj_right _).mp hins

/-- Overwriting an object is deleting it and allocating another there. -/
theorem entries_insert (hF : h.entries = ⟨a, v⟩ ::ₘ F) (w : α) :
    (h.insert a w).entries = ⟨a, w⟩ ::ₘ F := by
  have herase : h.insert a w = (h.erase a).insert a w := by
    refine Finmap.ext_lookup fun x => ?_
    by_cases hx : x = a
    · rw [hx, Finmap.lookup_insert, Finmap.lookup_insert]
    · rw [Finmap.lookup_insert_of_ne _ hx, Finmap.lookup_insert_of_ne _ hx,
        Finmap.lookup_erase_ne hx]
  rw [herase, Finmap.entries_insert_of_notMem Finmap.notMem_erase_self, entries_erase hF]

end Blocks

/-! ## Assertions -/

/-- What a part of the heap may consist of. -/
abbrev Assertion (α : Type) := Set (Multiset (Block α))

section Assertions

variable {α : Type}

/-- One block and nothing else. -/
def pointsTo (a : Addr) (v : α) : Assertion α := {{⟨a, v⟩}}

/-- An assertion together with a fact about no heap. -/
def Given (φ : Prop) (P : Assertion α) : Assertion α := {B | φ ∧ B ∈ P}

theorem mem_pointsTo_add {a : Addr} {v : α} {R : Assertion α} {B : Multiset (Block α)} :
    B ∈ pointsTo a v + R ↔ ∃ C ∈ R, B = ⟨a, v⟩ ::ₘ C := by
  simp only [pointsTo, Set.singleton_add, Set.mem_image, Multiset.singleton_add]
  exact exists_congr fun C => and_congr_right fun _ => eq_comm

/-- An assertion that fixes the number of blocks. -/
def Sized (P : Assertion α) (k : Nat) : Prop := ∀ B ∈ P, B.card = k

namespace Sized

variable {P Q : Assertion α} {k l : Nat}

theorem zero : Sized (0 : Assertion α) 0 := fun B hB => by rw [Set.mem_zero.mp hB]; rfl

theorem pointsTo (a : Addr) (v : α) : Sized (pointsTo a v) 1 := fun B hB => by
  rw [Set.mem_singleton_iff.mp hB]
  rfl

theorem add (hP : Sized P k) (hQ : Sized Q l) : Sized (P + Q) (k + l) := by
  intro B hB
  obtain ⟨B₁, h₁, B₂, h₂, rfl⟩ := Set.mem_add.mp hB
  rw [Multiset.card_add, hP B₁ h₁, hQ B₂ h₂]

theorem iUnion {ι : Sort*} {P : ι → Assertion α} (h : ∀ i, Sized (P i) k) : Sized (⋃ i, P i) k :=
  fun B hB => (Set.mem_iUnion.mp hB).elim fun i hi => h i B hi

theorem given {φ : Prop} (h : φ → Sized P k) : Sized (Given φ P) k := fun B hB => h hB.1 B hB.2

theorem list_sum {ι : Type} {f : ι → Assertion α} {g : ι → Nat} (h : ∀ x, Sized (f x) (g x))
    (xs : List ι) : Sized (xs.map f).sum (xs.map g).sum := by
  induction xs with
  | nil => exact zero
  | cons x xs ih => exact (h x).add ih

theorem sum {ι : Type} [Fintype ι] {f : ι → Assertion α} {g : ι → Nat}
    (h : ∀ x, Sized (f x) (g x)) : Sized (∑ x, f x) (∑ x, g x) := by
  rw [← Finset.sum_map_toList, ← Finset.sum_map_toList]
  exact list_sum h _

end Sized

end Assertions

/-! ## Triples -/

/-- From a heap with the blocks of `P`, and any others, `m` does not fault, and leaves the blocks of
`Q` and the others. -/
def Triple {α β : Type} {A : Allocator α} (P : Assertion α) (m : Mem A β) (Q : β → Assertion α) :
    Prop :=
  ∀ (s : Memory A) (B F : Multiset (Block α)), B ∈ P → s.heap.entries = B + F →
    ∃ x s' C, m.run s = .ok (x, s') ∧ C ∈ Q x ∧ s'.heap.entries = C + F

namespace Triple

variable {α β γ : Type} {A : Allocator α} {P P' R : Assertion α} {m : Mem A β}
  {Q Q' : β → Assertion α} {k : β → Mem A γ} {S : γ → Assertion α}

theorem pure {x : β} (h : P ⊆ Q x) : Triple P (Pure.pure x : Mem A β) Q :=
  fun s B _ hB hs => ⟨x, s, B, rfl, h hB, hs⟩

theorem bind (hm : Triple P m Q) (hk : ∀ x, Triple (Q x) (k x) S) : Triple P (m >>= k) S := by
  intro s B F hB hs
  obtain ⟨x, s₁, C, hrun, hC, hs₁⟩ := hm s B F hB hs
  obtain ⟨y, s₂, D, hrun₂, hD, hs₂⟩ := hk x s₁ C F hC hs₁
  refine ⟨y, s₂, D, ?_, hD, hs₂⟩
  rw [StateT.run_bind, hrun]
  exact hrun₂

theorem conseq (hm : Triple P m Q) (hpre : P' ⊆ P) (hpost : ∀ x, Q x ⊆ Q' x) :
    Triple P' m Q' := by
  intro s B F hB hs
  obtain ⟨x, s', C, hrun, hC, hs'⟩ := hm s B F (hpre hB) hs
  exact ⟨x, s', C, hrun, hpost x hC, hs'⟩

/-- The conjuncts of a precondition in another order. -/
theorem of_eq (h : P' = P) (hm : Triple P m Q) : Triple P' m Q := h ▸ hm

/-- **The frame rule.** What is not in the precondition is not touched. -/
theorem frame (hm : Triple P m Q) (R : Assertion α) : Triple (P + R) m fun x => Q x + R := by
  intro s B F hB hs
  obtain ⟨B₁, h₁, B₂, h₂, rfl⟩ := Set.mem_add.mp hB
  obtain ⟨x, s', C, hrun, hC, hs'⟩ := hm s B₁ (B₂ + F) h₁ (by rw [hs, add_assoc])
  exact ⟨x, s', C + B₂, hrun, Set.add_mem_add hC h₂, by rw [hs', add_assoc]⟩

/-- A call inside a program: its own triple, framed. -/
theorem call (hm : Triple P m Q) (hk : ∀ x, Triple (Q x + R) (k x) S) :
    Triple (P + R) (m >>= k) S :=
  (hm.frame R).bind hk

/-- A call that ends a program. -/
theorem tail_call {R : Assertion α} (hm : Triple P m Q) (hpost : ∀ x, Q x + R ⊆ Q' x) :
    Triple (P + R) m Q' :=
  (hm.frame R).conseq subset_rfl hpost

/-- The rule for a quantifier in the precondition. -/
theorem of_exists {ι : Sort*} {P : ι → Assertion α} (h : ∀ i, Triple (P i) m Q) :
    Triple (⋃ i, P i) m Q := by
  intro s B F hB hs
  obtain ⟨i, hi⟩ := Set.mem_iUnion.mp hB
  exact h i s B F hi hs

theorem of_exists_add {ι : Sort*} {P : ι → Assertion α} (h : ∀ i, Triple (P i + R) m Q) :
    Triple ((⋃ i, P i) + R) m Q := by
  rw [Set.iUnion_add]
  exact of_exists h

/-- The rule for a fact in the precondition. -/
theorem of_given {φ : Prop} (h : φ → Triple P m Q) : Triple (Given φ P) m Q :=
  fun s B F hB hs => h hB.1 s B F hB.2 hs

theorem of_given_add {φ : Prop} (h : φ → Triple (P + R) m Q) : Triple (Given φ P + R) m Q := by
  intro s B F hB hs
  obtain ⟨B₁, ⟨hφ, h₁⟩, B₂, h₂, rfl⟩ := Set.mem_add.mp hB
  exact h hφ s (B₁ + B₂) F (Set.add_mem_add h₁ h₂) hs

/-! ### Symbolic execution -/

theorem new_bind {v : α} {k : Addr → Mem A γ} (hk : ∀ a, Triple (pointsTo a v + R) (k a) S) :
    Triple R (new v >>= k) S := by
  refine bind (Q := fun a => pointsTo a v + R) (fun s B F hB hs => ?_) hk
  refine ⟨_, _, _, rfl, mem_pointsTo_add.mpr ⟨B, hB, rfl⟩, ?_⟩
  rw [Finmap.entries_insert_of_notMem (A.next_notMem s.allocator s.heap), hs,
    Multiset.cons_add]

theorem load_bind {a : Addr} {v : α} {k : α → Mem A γ} (hk : Triple (pointsTo a v + R) (k v) S) :
    Triple (pointsTo a v + R) (load a >>= k) S := by
  refine bind (Q := fun w => Given (w = v) (pointsTo a v + R)) (fun s B F hB hs => ?_)
    fun w => of_given fun hw => hw ▸ hk
  obtain ⟨C, -, rfl⟩ := mem_pointsTo_add.mp hB
  refine ⟨v, s, _, ?_, ⟨rfl, hB⟩, hs⟩
  have hlook := lookup_of_entries (hs.trans (Multiset.cons_add _ _ _))
  simp [load, StateT.run, hlook]

theorem loadAs_bind {view : α → Option β} {a : Addr} {v : α} {x : β} (hview : view v = some x)
    (hk : Triple (pointsTo a v + R) (k x) S) :
    Triple (pointsTo a v + R) (loadAs view a >>= k) S := by
  unfold loadAs
  rw [bind_assoc]
  refine load_bind ?_
  rw [hview, pure_bind]
  exact hk

theorem store_bind {a : Addr} {v w : α} {k : Unit → Mem A γ}
    (hk : Triple (pointsTo a w + R) (k ()) S) :
    Triple (pointsTo a v + R) (store a w >>= k) S := by
  refine bind (Q := fun _ => pointsTo a w + R) (fun s B F hB hs => ?_) fun _ => hk
  obtain ⟨C, hC, rfl⟩ := mem_pointsTo_add.mp hB
  rw [Multiset.cons_add] at hs
  refine ⟨(), { s with heap := s.heap.insert a w }, ⟨a, w⟩ ::ₘ C, ?_,
    mem_pointsTo_add.mpr ⟨C, hC, rfl⟩, ?_⟩
  · simp only [store, StateT.run, if_pos (mem_of_entries hs)]
  · rw [entries_insert hs, Multiset.cons_add]

theorem delete_bind {a : Addr} {v : α} {k : Unit → Mem A γ} (hk : Triple R (k ()) S) :
    Triple (pointsTo a v + R) (delete a >>= k) S := by
  refine bind (Q := fun _ => R) (fun s B F hB hs => ?_) fun _ => hk
  obtain ⟨C, hC, rfl⟩ := mem_pointsTo_add.mp hB
  rw [Multiset.cons_add] at hs
  refine ⟨(), { s with heap := s.heap.erase a }, C, ?_, hC, entries_erase hs⟩
  simp only [delete, StateT.run, if_pos (mem_of_entries hs)]

/-- The last operation of a program is followed by nothing. -/
theorem of_bind_pure (h : Triple P (m >>= Pure.pure) Q) : Triple P m Q := by
  rwa [bind_pure] at h

/-! ### Loops -/

/-- A loop that carries a value, with an invariant that knows the elements behind and those ahead.
Induction on those ahead. -/
theorem foldlM {ι : Type} {f : β → ι → Mem A β} {I : List ι → List ι → β → Assertion α}
    {xs : List ι} (h : ∀ behind x ahead y, xs = behind ++ x :: ahead →
      Triple (I behind (x :: ahead) y) (f y x) (I (behind ++ [x]) ahead)) (y : β) :
    Triple (I [] xs y) (xs.foldlM f y) (I xs []) := by
  -- induction with the items before as a parameter
  have hfrom : ∀ ahead behind y, xs = behind ++ ahead →
      Triple (I behind ahead y) (ahead.foldlM f y) (I xs []) := by
    intro ahead
    induction ahead with
    | nil => exact fun behind y hxs => Triple.pure (by rw [hxs, List.append_nil])
    | cons x ahead ih =>
      intro behind y hxs
      rw [List.foldlM_cons]
      exact bind (h behind x ahead y hxs) fun z =>
        ih (behind ++ [x]) z (by rw [hxs, List.append_assoc, List.singleton_append])
  exact hfrom xs [] y rfl

theorem forM {ι : Type} {f : ι → Mem A Unit} {I : List ι → List ι → Assertion α} {xs : List ι}
    (h : ∀ behind x ahead, xs = behind ++ x :: ahead →
      Triple (I behind (x :: ahead)) (f x) fun _ => I (behind ++ [x]) ahead) :
    Triple (I [] xs) (xs.forM f) fun _ => I xs [] := by
  -- a loop for its effects is a fold of a unit
  have hfold : xs.forM f = xs.foldlM (fun _ x => f x) () := by
    clear h
    induction xs with
    | nil => rfl
    | cons x xs ih =>
      rw [List.foldlM_cons]
      exact congrArg (f x >>= ·) (funext fun _ => ih)
  rw [hfold]
  exact foldlM (I := fun behind ahead _ => I behind ahead)
    (fun behind x ahead _ => h behind x ahead) ()

/-- A loop whose iterations own one conjunct each. -/
theorem forM_each {ι : Type} {f : ι → Mem A Unit} {P Q : ι → Assertion α} {xs : List ι}
    (h : ∀ x, Triple (P x) (f x) fun _ => Q x) :
    Triple (xs.map P).sum (xs.forM f) fun _ => (xs.map Q).sum := by
  refine (forM (I := fun behind ahead => (behind.map Q).sum + (ahead.map P).sum)
    (fun behind x ahead _ => ?_)).conseq ?_ fun _ => ?_
  · rw [List.map_cons, List.sum_cons, add_left_comm]
    refine (h x).tail_call fun _ => ?_
    rw [List.map_append, List.sum_append, List.map_singleton, List.sum_singleton,
      add_left_comm, add_assoc]
  · rw [List.map_nil, List.sum_nil, zero_add]
  · rw [List.map_nil, List.sum_nil, add_zero]

end Triple

/-- **From the empty memory**: the program does not fault, and what is allocated when it returns is
what its postcondition says. -/
theorem Triple.run_empty {α β : Type} {A : Allocator α} {m : Mem A β} {Q : β → Assertion α}
    (h : Triple 0 m Q) :
    ∃ x s, m.run (.empty A) = .ok (x, s) ∧ s.heap.entries ∈ Q x := by
  obtain ⟨x, s, C, hrun, hC, hs⟩ := h (.empty A) 0 0 (Set.mem_zero.mpr rfl) rfl
  exact ⟨x, s, hrun, by rwa [hs, add_zero]⟩

end SepLogic
