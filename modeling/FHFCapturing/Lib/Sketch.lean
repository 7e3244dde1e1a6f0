import FHFCapturing.Lib.Tally
import Mathlib.Data.List.Forall2
import Mathlib.Data.Nat.Basic
import Mathlib.Logic.Function.Basic

/-!
# Hash-indexed counter rows with a capped update

A sketch keeps, in several rows, counters indexed by a hash of the key. A key *passes* on an
amount `d` when in every row its counter plus `d` exceeds the threshold `S`; otherwise nothing
is admitted and the amount is recorded instead, each row's counter of the key being raised by
`d` but to no more than a cap, the first failing row's counter plus `d`. A counter that already
reached `S` is left alone.

`Covers b` says that every counter of a key is at least `b`. What the key itself has offered
since the counters were zero is covered as long as nobody takes a counter back; and since no
counter ever exceeds `S` (`Bounded`), a key that has offered more has passed. Because counters
are shared between keys and the cap of another key may lie *below* the value a shared counter
has, `raise` can take a counter back; `Lowers` is exactly that event.

A key whose counters no other key touches (`Alone`) is measured exactly: all its counters are
what it has offered (`Exact`), and it passes with the first amount that takes it over `S`.

The plain sketch records every amount in every row without a cap (`record`). Its counters stay
above those of the capped one (`Below`), so it passes whatever the capped one passes. They are the
tallies of all items by index (`tallies`).
-/

/-- A hash function and its counters. -/
@[ext] structure Row (K β : Type) where
  hash : K → β
  count : β → Nat

namespace Row

variable {K β : Type}

/-- The counter of a key. -/
def read (r : Row K β) (k : K) : Nat := r.count (r.hash k)

/-- Record `d` for the key, up to `cap`. -/
def raise [DecidableEq β] (S cap d : Nat) (k : K) (r : Row K β) : Row K β :=
  if r.read k < S then
    { r with count := Function.update r.count (r.hash k) (min (r.read k + d) cap) }
  else r

section Raise

variable [DecidableEq β] {S cap d : Nat} {k k' : K} {r : Row K β}

@[simp] theorem raise_hash : (r.raise S cap d k).hash = r.hash := by
  unfold raise; split <;> rfl

theorem raise_count (i : β) :
    (r.raise S cap d k).count i =
      if i = r.hash k ∧ r.read k < S then min (r.read k + d) cap else r.count i := by
  unfold raise
  by_cases hS : r.read k < S
  · by_cases hi : i = r.hash k <;> simp [hS, hi]
  · simp [hS]

theorem raise_read_self :
    (r.raise S cap d k).read k = if r.read k < S then min (r.read k + d) cap else r.read k := by
  show (r.raise S cap d k).count ((r.raise S cap d k).hash k) = _
  rw [raise_hash, raise_count]
  by_cases h : r.read k < S
  · rw [if_pos ⟨rfl, h⟩, if_pos h]
  · rw [if_neg fun hc => h hc.2, if_neg h]
    rfl

theorem raise_read_of_ne (h : r.hash k' ≠ r.hash k) : (r.raise S cap d k).read k' = r.read k' := by
  show (r.raise S cap d k).count ((r.raise S cap d k).hash k') = r.count (r.hash k')
  rw [raise_hash, raise_count, if_neg (fun hc => h hc.1)]

theorem raise_read_of_eq (h : r.hash k' = r.hash k) :
    (r.raise S cap d k).read k' = (r.raise S cap d k).read k := by
  simp [read, h]

end Raise

/-! ### Without a cap -/

/-- The same hash function, and no counter above that of the other row. -/
def Below (r r' : Row K β) : Prop := r.hash = r'.hash ∧ ∀ i, r.count i ≤ r'.count i

theorem Below.read_le {r r' : Row K β} (h : r.Below r') (k : K) : r.read k ≤ r'.read k := by
  unfold read
  rw [← h.1]
  exact h.2 _

section Add

variable [DecidableEq β] {r r' : Row K β}

/-- Record `d` for the key. -/
def add (d : Nat) (k : K) (r : Row K β) : Row K β :=
  { r with count := Function.update r.count (r.hash k) (r.read k + d) }

theorem add_count (d : Nat) (k : K) (i : β) :
    (r.add d k).count i = if i = r.hash k then r.read k + d else r.count i := by
  by_cases hi : i = r.hash k <;> simp [add, hi]

theorem Below.add (h : r.Below r') (d : Nat) (k : K) : r.Below (r'.add d k) := by
  refine ⟨h.1, fun i => ?_⟩
  have hcount := h.2 i
  rw [add_count]
  split
  · rename_i hi
    unfold read
    rw [← hi]
    omega
  · exact hcount

theorem Below.raise_add (h : r.Below r') (S cap d : Nat) (k : K) :
    (r.raise S cap d k).Below (r'.add d k) := by
  refine ⟨by rw [raise_hash]; exact h.1, fun i => ?_⟩
  have hadd := (h.add d k).2 i
  rw [raise_count]
  split
  · rename_i hi
    have hread := h.read_le k
    rw [add_count, if_pos (by rw [← h.1]; exact hi.1)]
    omega
  · exact hadd

end Add

end Row

namespace Sketch

variable {K β : Type} {S d b : Nat} {k k' : K} {rows : List (Row K β)}

/-- The first row that keeps the key from passing. -/
def firstLow (S : Nat) (rows : List (Row K β)) (k : K) (d : Nat) : Option (Row K β) :=
  rows.find? fun r => r.read k + d ≤ S

/-- Offer `d` for key `k`: whether the key passes, and the rows after. -/
def offer [DecidableEq β] (S : Nat) (rows : List (Row K β)) (k : K) (d : Nat) :
    Bool × List (Row K β) :=
  match firstLow S rows k d with
  | none => (true, rows)
  | some low => (false, rows.map (Row.raise S (low.read k + d) d k))

/-- No counter is above `S`. -/
def Bounded (S : Nat) (rows : List (Row K β)) : Prop := ∀ r ∈ rows, ∀ i, r.count i ≤ S

/-- Every row has counted at least `b` for the key. -/
def Covers (rows : List (Row K β)) (k : K) (b : Nat) : Prop := ∀ r ∈ rows, b ≤ r.read k

/-- Offering `d` for `k'` takes a counter that `k` shares back to the cap. -/
def Lowers (S : Nat) (rows : List (Row K β)) (k' : K) (d : Nat) (k : K) : Prop :=
  ∃ low, firstLow S rows k' d = some low ∧
    ∃ r ∈ rows, r.hash k = r.hash k' ∧ low.read k' + d < r.read k ∧ r.read k < S

theorem firstLow_spec {low : Row K β} (h : firstLow S rows k d = some low) :
    low ∈ rows ∧ low.read k + d ≤ S :=
  ⟨List.mem_of_find?_eq_some h, by simpa using List.find?_some h⟩

theorem firstLow_eq_none : firstLow S rows k d = none ↔ ∀ r ∈ rows, S < r.read k + d := by
  simp [firstLow]

section Offer

variable [DecidableEq β]

theorem offer_of_none (h : firstLow S rows k d = none) : offer S rows k d = (true, rows) := by
  simp [offer, h]

theorem offer_of_some {low : Row K β} (h : firstLow S rows k d = some low) :
    offer S rows k d = (false, rows.map (Row.raise S (low.read k + d) d k)) := by
  simp [offer, h]

/-- Counters stay at or below the threshold: the cap of a failing key is. -/
theorem bounded_offer (h : Bounded S rows) : Bounded S (offer S rows k d).2 := by
  cases hlow : firstLow S rows k d with
  | none => rwa [offer_of_none hlow]
  | some low =>
    rw [offer_of_some hlow]
    intro r' hr' i
    obtain ⟨r, hr, rfl⟩ := List.mem_map.mp hr'
    have hcap := (firstLow_spec hlow).2
    rw [Row.raise_count]
    split
    · omega
    · exact h r hr i

/-- A failed offer of the key itself is covered from then on, together with what was covered
before: the cap is at least that. -/
theorem covers_offer_self (h : Covers rows k b)
    (hfail : (offer S rows k d).1 = false) : Covers (offer S rows k d).2 k (b + d) := by
  cases hlow : firstLow S rows k d with
  | none => simp [offer_of_none hlow] at hfail
  | some low =>
    obtain ⟨hmem, hle⟩ := firstLow_spec hlow
    -- the cap is the value of the first low row, which has counted `b` too
    have hcap := h low hmem
    rw [offer_of_some hlow]
    intro r' hr'
    obtain ⟨r, hr, rfl⟩ := List.mem_map.mp hr'
    have hb := h r hr
    rw [Row.raise_read_self]
    split <;> omega

/-- An offer of another key that takes none of the key's counters back keeps it covered. -/
theorem covers_offer_of_not_lowers (h : Covers rows k b) (hno : ¬ Lowers S rows k' d k) :
    Covers (offer S rows k' d).2 k b := by
  cases hlow : firstLow S rows k' d with
  | none => rwa [offer_of_none hlow]
  | some low =>
    rw [offer_of_some hlow]
    intro r' hr'
    obtain ⟨r, hr, rfl⟩ := List.mem_map.mp hr'
    have hb := h r hr
    -- in a row that the two keys share, the counter of `k` is the one that is raised
    by_cases hshare : r.hash k = r.hash k'
    · have hat : r.read k = r.read k' := by simp [Row.read, hshare]
      have hcap : r.read k < S → r.read k ≤ low.read k' + d := fun hS => by
        by_contra hlt
        exact hno ⟨low, hlow, r, hr, hshare, by omega, hS⟩
      rw [Row.raise_read_of_eq hshare, Row.raise_read_self]
      split <;> omega
    · -- in any other row it stays
      rwa [Row.raise_read_of_ne hshare]

end Offer

theorem covers_zero (rows : List (Row K β)) (k : K) : Covers rows k 0 := fun _ _ => Nat.zero_le _

/-! ## A key alone on its counters -/

/-- Every row has counted exactly `b` for the key. -/
def Exact (rows : List (Row K β)) (k : K) (b : Nat) : Prop := ∀ r ∈ rows, r.read k = b

/-- No key of `G` shares a counter with `k`. -/
def Alone (rows : List (Row K β)) (k : K) (G : K → Prop) : Prop :=
  ∀ r ∈ rows, ∀ k', G k' → r.hash k ≠ r.hash k'

section Alone

variable [DecidableEq β]

theorem alone_offer {G : K → Prop} (h : Alone rows k G) (k' : K) (d : Nat) :
    Alone (offer S rows k' d).2 k G := by
  cases hlow : firstLow S rows k' d with
  | none => rwa [offer_of_none hlow]
  | some low =>
    rw [offer_of_some hlow]
    intro r' hr'
    obtain ⟨r, hr, rfl⟩ := List.mem_map.mp hr'
    rw [Row.raise_hash]
    exact h r hr

/-- The offers of keys that share no counter leave the key's counters as they are. -/
theorem exact_offer_of_ne (h : Exact rows k b) (hne : ∀ r ∈ rows, r.hash k ≠ r.hash k') :
    Exact (offer S rows k' d).2 k b := by
  cases hlow : firstLow S rows k' d with
  | none => rwa [offer_of_none hlow]
  | some low =>
    rw [offer_of_some hlow]
    intro r' hr'
    obtain ⟨r, hr, rfl⟩ := List.mem_map.mp hr'
    rw [Row.raise_read_of_ne (hne r hr)]
    exact h r hr

/-- A failed offer of the key adds the amount to all its counters: the cap is the same sum in
every row, and a counter that has reached the threshold can only have been offered nothing. -/
theorem exact_offer_self (h : Exact rows k b) (hfail : (offer S rows k d).1 = false) :
    Exact (offer S rows k d).2 k (b + d) ∧ b + d ≤ S := by
  cases hlow : firstLow S rows k d with
  | none => simp [offer_of_none hlow] at hfail
  | some low =>
    obtain ⟨hmem, hle⟩ := firstLow_spec hlow
    -- all rows agree, so the cap is the sum
    rw [h low hmem] at hle
    refine ⟨?_, hle⟩
    rw [offer_of_some hlow, h low hmem]
    intro r' hr'
    obtain ⟨r, hr, rfl⟩ := List.mem_map.mp hr'
    have hread := h r hr
    rw [Row.raise_read_self]
    split <;> omega

/-- A key passes with the amount that takes it over the threshold. -/
theorem exact_offer_pass (h : Exact rows k b) (hne : rows ≠ [])
    (hpass : (offer S rows k d).1 = true) : S < b + d := by
  cases hlow : firstLow S rows k d with
  | some low => simp [offer_of_some hlow] at hpass
  | none =>
    obtain ⟨r, hr⟩ := List.exists_mem_of_ne_nil rows hne
    rw [← h r hr]
    exact firstLow_eq_none.mp hlow r hr

end Alone

/-! ## The plain sketch -/

def Below : List (Row K β) → List (Row K β) → Prop := List.Forall₂ Row.Below

theorem Below.refl (rows : List (Row K β)) : Below rows rows :=
  List.forall₂_same.mpr fun _ _ => ⟨rfl, fun _ => Nat.le_refl _⟩

section Plain

variable [DecidableEq β]

/-- Record `d` for the key in every row. -/
def record (rows : List (Row K β)) (k : K) (d : Nat) : List (Row K β) := rows.map (Row.add d k)

variable {plain : List (Row K β)}

/-- One amount, in both sketches: what the capped one adds, the plain one adds too. -/
theorem Below.offer (h : Below rows plain) (k : K) (d : Nat) :
    Below (offer S rows k d).2 (record plain k d) := by
  unfold record
  cases hlow : firstLow S rows k d with
  | none =>
    rw [offer_of_none hlow]
    exact List.forall₂_map_right_iff.mpr (h.imp fun _ _ hrow => hrow.add d k)
  | some low =>
    rw [offer_of_some hlow]
    exact List.forall₂_map_left_iff.mpr (List.forall₂_map_right_iff.mpr
      (h.imp fun _ _ hrow => hrow.raise_add S _ d k))

/-- What passes the capped sketch passes the plain one. -/
theorem Below.pass (h : Below rows plain) (hpass : (Sketch.offer S rows k d).1 = true) :
    ∀ r ∈ plain, S < r.read k + d := by
  cases hlow : firstLow S rows k d with
  | some low => simp [offer_of_some hlow] at hpass
  | none =>
    -- no row is low, and the rows of the second sketch are above
    have hover := firstLow_eq_none.mp hlow
    clear hlow hpass
    induction h with
    | nil => intro r hr; cases hr
    | cons hrow _ ih =>
      obtain ⟨hhead, htail⟩ := List.forall_mem_cons.mp hover
      refine List.forall_mem_cons.mpr ⟨?_, ih htail⟩
      have hread := hrow.read_le k
      omega

theorem Below.record (h : Below rows plain) (k : K) (d : Nat) :
    Below rows (record plain k d) :=
  List.forall₂_map_right_iff.mpr (h.imp fun _ _ hrow => hrow.add d k)

/-! ### What it holds -/

variable {α : Type} {key : α → K} {weight : α → Nat}

/-- The row of a hash function that has recorded these items: the tally of every index. -/
def tallyRow (key : α → K) (weight : α → Nat) (hash : K → β) (xs : List α) : Row K β where
  hash := hash
  count i := Tally.tally (fun x => hash (key x)) weight i xs

theorem add_tallyRow (hash : K → β) (xs : List α) (x : α) :
    (tallyRow key weight hash xs).add (weight x) (key x) =
      tallyRow key weight hash (xs ++ [x]) := by
  refine Row.ext rfl (funext fun i => ?_)
  have hright : (tallyRow key weight hash (xs ++ [x])).count i =
      Tally.tally (fun x => hash (key x)) weight i xs +
        if hash (key x) = i then weight x else 0 := by
    rw [← @Tally.tally_singleton _ _ _ (fun x => hash (key x)), ← Tally.tally_append]
    rfl
  rw [Row.add_count, hright]
  -- one counter takes the item, in the row and in the tally
  by_cases hi : i = hash (key x)
  · rw [if_pos hi.symm, hi]
    exact if_pos rfl
  · rw [if_neg (Ne.symm hi), Nat.add_zero]
    exact if_neg hi

/-- The plain sketch of these hash functions after these items. -/
def tallies (key : α → K) (weight : α → Nat) (hashes : List (K → β)) (xs : List α) :
    List (Row K β) :=
  hashes.map fun hash => tallyRow key weight hash xs

theorem record_tallies (hashes : List (K → β)) (xs : List α) (x : α) :
    record (tallies key weight hashes xs) (key x) (weight x) =
      tallies key weight hashes (xs ++ [x]) := by
  unfold record tallies
  rw [List.map_map]
  exact List.map_congr_left fun hash _ => add_tallyRow hash xs x

/-- What passes a sketch below takes every tally over the threshold. -/
theorem Below.tally_pass {hashes : List (K → β)} {xs : List α} {x : α}
    (h : Below rows (tallies key weight hashes xs))
    (hpass : (Sketch.offer S rows (key x) (weight x)).1 = true) :
    ∀ hash ∈ hashes, S < Tally.tally (fun x => hash (key x)) weight (hash (key x)) (xs ++ [x]) := by
  intro hash hmem
  have hread := h.pass hpass _ (List.mem_map_of_mem hmem)
  rw [Tally.tally_append, Tally.tally_singleton, if_pos rfl]
  exact hread

end Plain

end Sketch
