import Mathlib.Data.List.Nodup
import Mathlib.Data.List.Perm.Basic

/-!
# Finite maps with an iteration order

An unordered associative container holds each key once, and iterating over it visits the
entries in some order the container chooses. Here such a map is its entries in iteration
order, with the distinctness of the keys carried by the structure; *where* a new entry goes is
a parameter (`Placement`), because an unordered container promises nothing about it: an
insertion may even reorder the entries already there. Updating an entry in place and erasing
the entry under an iterator keep the order of the rest.

The loop that walks such a map once, updating or erasing the entry under the iterator and
appending to an output sequence, is `scan`; `Cursor` is the state between its iterations.
-/

/-- A finite map from `K` to `V`, as its entries in iteration order. -/
structure IterMap (K V : Type) where
  entries : List (K × V)
  nodup_keys : (entries.map Prod.fst).Nodup

namespace IterMap

variable {K V R : Type}

/-- Where an insertion puts a new entry in the iteration order: any rearrangement of the old
entries and the new one. -/
structure Placement (K V : Type) where
  place : List (K × V) → K × V → List (K × V)
  place_perm : ∀ es e, (place es e).Perm (e :: es)

/-- Every new entry comes last. -/
def Placement.atEnd : Placement K V where
  place es e := es ++ [e]
  place_perm es e := List.perm_append_singleton e es

def empty : IterMap K V := ⟨[], by simp⟩

def keys (m : IterMap K V) : List K := m.entries.map Prod.fst

def size (m : IterMap K V) : Nat := m.entries.length

theorem mem_keys {m : IterMap K V} {k : K} : k ∈ m.keys ↔ ∃ v, (k, v) ∈ m.entries := by
  simp [keys]

theorem entry_unique {m : IterMap K V} {k : K} {v v' : V}
    (h : (k, v) ∈ m.entries) (h' : (k, v') ∈ m.entries) : v = v' := by
  have heq : (k, v) = (k, v') := List.inj_on_of_nodup_map m.nodup_keys h h' rfl
  exact (Prod.mk.inj heq).2

/-! ## Lookup -/

section Lookup

variable [DecidableEq K]

/-- The value under a key. -/
def find? (m : IterMap K V) (k : K) : Option V :=
  (m.entries.find? (fun e => e.1 = k)).map Prod.snd

def contains (m : IterMap K V) (k : K) : Bool := (m.find? k).isSome

theorem find?_eq_some {m : IterMap K V} {k : K} {v : V} :
    m.find? k = some v ↔ (k, v) ∈ m.entries := by
  constructor
  · intro h
    obtain ⟨e, hfind, hv⟩ := Option.map_eq_some_iff.mp h
    have hkey : e.1 = k := by simpa using List.find?_some hfind
    have hmem := List.mem_of_find?_eq_some hfind
    -- the first entry found under the key is an entry
    rwa [← hkey, ← hv]
  · intro h
    obtain ⟨e, hfind⟩ : ∃ e, m.entries.find? (fun e => e.1 = k) = some e := by
      rw [← Option.isSome_iff_exists, List.find?_isSome]
      exact ⟨(k, v), h, by simp⟩
    have hkey : e.1 = k := by simpa using List.find?_some hfind
    have hmem : (k, e.2) ∈ m.entries := by
      rw [← hkey]; exact List.mem_of_find?_eq_some hfind
    -- an entry under the key is the one found, since there is only one
    simp [find?, hfind, entry_unique hmem h]

theorem find?_isSome {m : IterMap K V} {k : K} : (m.find? k).isSome = m.contains k := rfl

theorem contains_iff {m : IterMap K V} {k : K} :
    m.contains k = true ↔ ∃ v, (k, v) ∈ m.entries := by
  rw [contains, Option.isSome_iff_exists]
  exact exists_congr fun v => find?_eq_some

theorem contains_eq_false {m : IterMap K V} {k : K} :
    m.contains k = false ↔ ∀ v, (k, v) ∉ m.entries := by
  rw [← Bool.not_eq_true, contains_iff, not_exists]

end Lookup

/-! ## Updating one entry in place -/

section Modify

variable [DecidableEq K]

/-- Change the value under a key, if there is one. -/
def modify (m : IterMap K V) (k : K) (f : V → V) : IterMap K V where
  entries := m.entries.map fun e => if e.1 = k then (e.1, f e.2) else e
  nodup_keys := by
    have hfst : (Prod.fst ∘ fun e : K × V => if e.1 = k then (e.1, f e.2) else e) = Prod.fst := by
      funext e
      by_cases h : e.1 = k <;> simp [h]
    rw [List.map_map, hfst]
    exact m.nodup_keys

theorem mem_modify {m : IterMap K V} {k k' : K} {f : V → V} {v' : V} :
    (k', v') ∈ (m.modify k f).entries ↔
      (k' ≠ k ∧ (k', v') ∈ m.entries) ∨ (k' = k ∧ ∃ v, (k, v) ∈ m.entries ∧ v' = f v) := by
  simp only [modify, List.mem_map]
  constructor
  · rintro ⟨⟨k₀, v₀⟩, hmem, heq⟩
    -- the entry of the key is the only one that changes
    by_cases h : k₀ = k
    · subst h
      simp only [↓reduceIte, Prod.mk.injEq] at heq
      exact Or.inr ⟨heq.1.symm, v₀, hmem, heq.2.symm⟩
    · simp only [if_neg h, Prod.mk.injEq] at heq
      obtain ⟨rfl, rfl⟩ := heq
      exact Or.inl ⟨h, hmem⟩
  · rintro (⟨hne, hmem⟩ | ⟨rfl, v, hmem, rfl⟩)
    · exact ⟨(k', v'), hmem, by simp [hne]⟩
    · exact ⟨(k', v), hmem, by simp⟩

theorem find?_modify (m : IterMap K V) (k k' : K) (f : V → V) :
    (m.modify k f).find? k' = if k' = k then (m.find? k').map f else m.find? k' := by
  apply Option.ext
  intro v'
  rw [find?_eq_some, mem_modify]
  by_cases h : k' = k
  · subst h
    simp only [ne_eq, not_true, false_and, true_and, false_or, ↓reduceIte,
      Option.map_eq_some_iff, find?_eq_some]
    exact exists_congr fun v => and_congr_right fun _ => eq_comm
  · simp [h, find?_eq_some]

end Modify

/-! ## Insertion -/

section Insert

variable [DecidableEq K]

/-- Insert an entry unless its key already has one. -/
def insert (P : Placement K V) (m : IterMap K V) (k : K) (v : V) : IterMap K V :=
  if h : m.contains k = true then m
  else
    { entries := P.place m.entries (k, v)
      nodup_keys := by
        have hperm := (P.place_perm m.entries (k, v)).map Prod.fst
        rw [hperm.nodup_iff, List.map_cons, List.nodup_cons]
        refine ⟨?_, m.nodup_keys⟩
        rw [contains_iff] at h
        simpa using h }

theorem mem_insert {P : Placement K V} {m : IterMap K V} {k k' : K} {v v' : V}
    (h : m.contains k = false) :
    (k', v') ∈ (m.insert P k v).entries ↔ (k' = k ∧ v' = v) ∨ (k', v') ∈ m.entries := by
  rw [insert, dif_neg (by simp [h])]
  simp [(P.place_perm m.entries (k, v)).mem_iff]

theorem find?_insert {P : Placement K V} {m : IterMap K V} {k : K} {v : V}
    (h : m.contains k = false) (k' : K) :
    (m.insert P k v).find? k' = if k' = k then some v else m.find? k' := by
  apply Option.ext
  intro v'
  rw [find?_eq_some, mem_insert h]
  by_cases hk : k' = k
  · subst hk
    simp only [true_and, ↓reduceIte, Option.some.injEq]
    constructor
    · rintro (rfl | hmem)
      · rfl
      · -- the key was not there, so no old entry is under it
        exact absurd hmem (contains_eq_false.mp h v')
    · rintro rfl
      exact Or.inl rfl
  · simp [hk, find?_eq_some]

/-- An insertion under a key that is there changes nothing. -/
theorem insert_of_contains {P : Placement K V} {m : IterMap K V} {k : K} {v : V}
    (h : m.contains k = true) : m.insert P k v = m := by
  rw [insert, dif_pos h]

end Insert

/-! ## The erase-while-iterating loop -/

section Scan

/-- The loop from an iterator position on: `visited` are the entries behind the iterator,
the third argument those from it on. For the value under the iterator, `body` says what to
append to the output and either the value to leave in place (the iterator steps forward) or
`none` to erase the entry (the erase returns the next position). -/
def scanLoop (body : V → List R × Option V) :
    List (K × V) → List (K × V) → List R → List (K × V) × List R
  | visited, [], out => (visited, out)
  | visited, (k, v) :: rest, out =>
      match body v with
      | (pushed, some v') => scanLoop body (visited ++ [(k, v')]) rest (out ++ pushed)
      | (pushed, none) => scanLoop body visited rest (out ++ pushed)

/-- The loop visits every entry once, in order: what it leaves in place and what it outputs are
those of the entries taken one by one. Induction on the entries not yet visited. -/
theorem scanLoop_eq (body : V → List R × Option V) (visited rest : List (K × V)) (out : List R) :
    scanLoop body visited rest out =
      (visited ++ rest.filterMap (fun e => (body e.2).2.map (e.1, ·)),
        out ++ rest.flatMap (fun e => (body e.2).1)) := by
  induction rest generalizing visited out with
  | nil => simp [scanLoop]
  | cons e rest ih =>
    obtain ⟨k, v⟩ := e
    rcases hbody : body v with ⟨pushed, _ | v'⟩
    · simp [scanLoop, hbody, ih]
    · simp [scanLoop, hbody, ih]

/-- Keeping some entries, with other values, keeps the keys different. -/
theorem nodup_keys_filterMap {es : List (K × V)} (keep : V → Option V)
    (h : (es.map Prod.fst).Nodup) :
    ((es.filterMap fun e => (keep e.2).map (e.1, ·)).map Prod.fst).Nodup := by
  refine h.sublist ?_
  induction es with
  | nil => simp
  | cons e es ih =>
    have hes := ih (List.nodup_cons.mp h).2
    rcases hkeep : keep e.2 with _ | v'
    · simpa [hkeep] using hes.trans (List.sublist_cons_self _ _)
    · simpa [hkeep] using hes.cons_cons e.1

/-- Walk the whole map once with `body`, appending to `out`. -/
def scan (body : V → List R × Option V) (m : IterMap K V) (out : List R) :
    IterMap K V × List R :=
  ({ entries := (scanLoop body [] m.entries out).1
     nodup_keys := by
      rw [scanLoop_eq]
      simpa using nodup_keys_filterMap (fun v => (body v).2) m.nodup_keys },
    (scanLoop body [] m.entries out).2)

/-- The entries that the scan leaves. -/
theorem scan_entries (body : V → List R × Option V) (m : IterMap K V) (out : List R) :
    (m.scan body out).1.entries =
      m.entries.filterMap (fun e => (body e.2).2.map (e.1, ·)) := by
  simp [scan, scanLoop_eq]

/-- What the scan pushes, in the order of the entries. -/
theorem scan_output (body : V → List R × Option V) (m : IterMap K V) (out : List R) :
    (m.scan body out).2 = out ++ m.entries.flatMap (fun e => (body e.2).1) := by
  simp [scan, scanLoop_eq]

theorem mem_scan {body : V → List R × Option V} {m : IterMap K V} {out : List R} {k : K}
    {v' : V} :
    (k, v') ∈ (m.scan body out).1.entries ↔ ∃ v, (k, v) ∈ m.entries ∧ (body v).2 = some v' := by
  rw [scan_entries, List.mem_filterMap]
  constructor
  · rintro ⟨⟨k₀, v⟩, hmem, hbody⟩
    obtain ⟨w, hw, heq⟩ := Option.map_eq_some_iff.mp hbody
    obtain ⟨rfl, rfl⟩ := Prod.mk.inj heq
    exact ⟨v, hmem, hw⟩
  · rintro ⟨v, hmem, hbody⟩
    exact ⟨(k, v), hmem, by simp [hbody]⟩

theorem find?_scan [DecidableEq K] (body : V → List R × Option V) (m : IterMap K V)
    (out : List R) (k : K) :
    (m.scan body out).1.find? k = (m.find? k).bind fun v => (body v).2 := by
  apply Option.ext
  intro v'
  rw [find?_eq_some, mem_scan]
  simp [Option.bind_eq_some_iff, find?_eq_some]

end Scan

/-! ## The loop, one iteration at a time -/

/-- Between two iterations: the entries behind the iterator, those from it on, and the output so
far. -/
structure Cursor (K V R : Type) where
  behind : List (K × V)
  ahead : List (K × V)
  out : List R

namespace Cursor

variable {body : V → List R × Option V}

/-- The loop condition and one iteration: none at the end. -/
def step (body : V → List R × Option V) (c : Cursor K V R) : Option (Cursor K V R) :=
  match c.ahead with
  | [] => none
  | (k, v) :: rest =>
      match body v with
      | (pushed, some v') => some ⟨c.behind ++ [(k, v')], rest, c.out ++ pushed⟩
      | (pushed, none) => some ⟨c.behind, rest, c.out ++ pushed⟩

/-- The state after `n` iterations, if there are as many. -/
def after (body : V → List R × Option V) : Nat → Cursor K V R → Option (Cursor K V R)
  | 0, c => some c
  | n + 1, c => (c.step body).bind (after body n)

/-- One iteration classifies the entry under the iterator, and the iterator passes it. -/
theorem step_cons (behind rest : List (K × V)) (out : List R) (k : K) (v : V) :
    step body ⟨behind, (k, v) :: rest, out⟩ =
      some ⟨behind ++ ((body v).2.map (k, ·)).toList, rest, out ++ (body v).1⟩ := by
  rcases hbody : body v with ⟨pushed, _ | v'⟩ <;> simp [step, hbody]

/-- After `n` iterations the iterator is at the `n`-th entry, and all from there on still are as
they were. Induction on the iterations. -/
theorem after_of_le {n : Nat} (behind : List (K × V)) {ahead : List (K × V)} (out : List R)
    (h : n ≤ ahead.length) :
    after body n ⟨behind, ahead, out⟩ =
      some ⟨behind ++ (ahead.take n).filterMap fun e => (body e.2).2.map (e.1, ·),
        ahead.drop n, out ++ (ahead.take n).flatMap fun e => (body e.2).1⟩ := by
  induction n generalizing behind ahead out with
  | zero => simp [after]
  | succ n ih =>
    cases ahead with
    | nil => simp at h
    | cons e rest =>
      obtain ⟨k, v⟩ := e
      -- the iterator passes one entry, kept or not
      rw [after, step_cons, Option.bind_some, ih _ _ (Nat.le_of_succ_le_succ h)]
      cases hkeep : (body v).2 <;> simp [hkeep]

/-- The loop ends with the entry after the last. -/
theorem after_length (body : V → List R × Option V) (m : IterMap K V) (out : List R) :
    after body m.size ⟨[], m.entries, out⟩ =
      some ⟨(m.scan body out).1.entries, [], (m.scan body out).2⟩ := by
  rw [size, after_of_le _ _ (Nat.le_refl _), List.take_length, List.drop_length, scan_entries,
    scan_output, List.nil_append]

theorem step_of_ahead_nil {c : Cursor K V R} (h : c.ahead = []) : c.step body = none := by
  unfold step
  rw [h]

end Cursor

/-! ## Maps to pointers -/

section MapValues

variable {W : Type}

/-- The same keys in the same order, with the values seen through `f`. -/
def mapValues (f : V → W) (m : IterMap K V) : IterMap K W where
  entries := m.entries.map (Prod.map id f)
  nodup_keys := by
    rw [List.map_map]
    exact m.nodup_keys

@[ext]
theorem ext_entries {m m' : IterMap K V} (h : m.entries = m'.entries) : m = m' := by
  cases m
  congr

/-- A container whose iteration order depends on the keys alone, whatever they are mapped to. -/
structure KeyPlacement (K : Type) where
  place : ∀ V : Type, List (K × V) → K × V → List (K × V)
  place_perm : ∀ (V : Type) (es : List (K × V)) (e : K × V), (place V es e).Perm (e :: es)
  place_map : ∀ (V W : Type) (f : V → W) (es : List (K × V)) (e : K × V),
    (place V es e).map (Prod.map id f) = place W (es.map (Prod.map id f)) (Prod.map id f e)

namespace KeyPlacement

/-- The container at one type of values. -/
def placement (C : KeyPlacement K) (V : Type) : Placement K V := ⟨C.place V, C.place_perm V⟩

def atEnd : KeyPlacement K where
  place _ es e := es ++ [e]
  place_perm _ es e := List.perm_append_singleton e es
  place_map _ _ f es e := by rw [List.map_append, List.map_singleton]

end KeyPlacement

variable [DecidableEq K]

theorem find?_mapValues (f : V → W) (m : IterMap K V) (k : K) :
    (m.mapValues f).find? k = (m.find? k).map f := by
  apply Option.ext
  intro w
  rw [find?_eq_some, Option.map_eq_some_iff]
  constructor
  · intro hmem
    obtain ⟨⟨k', v⟩, hv, heq⟩ := List.mem_map.mp hmem
    obtain ⟨rfl, rfl⟩ := Prod.mk.inj heq
    exact ⟨v, find?_eq_some.mpr hv, rfl⟩
  · rintro ⟨v, hv, rfl⟩
    exact List.mem_map.mpr ⟨(k, v), find?_eq_some.mp hv, rfl⟩

theorem contains_mapValues (f : V → W) (m : IterMap K V) (k : K) :
    (m.mapValues f).contains k = m.contains k := by
  rw [contains, find?_mapValues, Option.isSome_map, find?_isSome]

theorem insert_mapValues (C : KeyPlacement K) (f : V → W) (m : IterMap K V) (k : K) (v : V) :
    (m.insert (C.placement V) k v).mapValues f =
      (m.mapValues f).insert (C.placement W) k (f v) := by
  cases h : m.contains k with
  | true =>
    rw [insert_of_contains h, insert_of_contains (by rw [contains_mapValues, h])]
  | false =>
    ext1
    simp only [insert, contains_mapValues, h, Bool.false_eq_true, ↓reduceDIte]
    exact C.place_map V W f m.entries (k, v)

/-- Modifying the second components of a map of pairs. -/
theorem modify_mapValues_snd (g : W → W) (m : IterMap K (V × W)) (k : K) :
    (m.modify k (Prod.map id g)).mapValues Prod.snd = (m.mapValues Prod.snd).modify k g := by
  ext1
  simp only [mapValues, modify, List.map_map]
  refine List.map_congr_left fun e _ => ?_
  by_cases hk : e.1 = k <;> simp [hk]

theorem modify_mapValues_fst (g : W → W) (m : IterMap K (V × W)) (k : K) :
    (m.modify k (Prod.map id g)).mapValues Prod.fst = m.mapValues Prod.fst := by
  ext1
  simp only [mapValues, modify, List.map_map]
  refine List.map_congr_left fun e _ => ?_
  by_cases hk : e.1 = k
  · simp [← hk, Prod.map]
  · simp [hk]

omit [DecidableEq K] in
/-- No entry before or after a key's own has the key. -/
theorem key_ne_of_entries {m : IterMap K V} {before after : List (K × V)} {k : K} {v : V}
    (h : m.entries = before ++ (k, v) :: after) : ∀ e ∈ before ++ after, e.1 ≠ k := by
  have hnodup := m.nodup_keys
  rw [h, List.map_append, List.map_cons, List.nodup_middle, List.nodup_cons,
    ← List.map_append] at hnodup
  exact fun e he hk => hnodup.1 (List.mem_map.mpr ⟨e, he, hk⟩)

/-- Modifying the value of a key changes its entry alone. -/
theorem modify_entries {m : IterMap K V} {before after : List (K × V)} {k : K} {v : V}
    (h : m.entries = before ++ (k, v) :: after) (g : V → V) :
    (m.modify k g).entries = before ++ (k, g v) :: after := by
  have hother : ∀ e ∈ before ++ after, (if e.1 = k then (e.1, g e.2) else e) = id e :=
    fun e he => if_neg (key_ne_of_entries h e he)
  change m.entries.map _ = _
  rw [h, List.map_append, List.map_cons, if_pos rfl,
    List.map_congr_left fun e he => hother e (List.mem_append_left _ he),
    List.map_congr_left fun e he => hother e (List.mem_append_right _ he), List.map_id, List.map_id]

/-- Erase the entry of a key. -/
def erase (m : IterMap K V) (k : K) : IterMap K V where
  entries := m.entries.filter fun e => e.1 ≠ k
  nodup_keys := m.nodup_keys.sublist (List.filter_sublist.map _)

/-- Erasing the key of the entry under an iterator leaves those behind and those ahead. -/
theorem erase_entries {m : IterMap K V} {before after : List (K × V)} {k : K} {v : V}
    (h : m.entries = before ++ (k, v) :: after) : (m.erase k).entries = before ++ after := by
  have hother : ∀ e ∈ before ++ after, decide (e.1 ≠ k) = true := fun e he =>
    decide_eq_true (key_ne_of_entries h e he)
  change m.entries.filter _ = _
  rw [h, List.filter_append, List.filter_cons_of_neg (by simp), ← List.filter_append]
  exact List.filter_eq_self.mpr hother

theorem erase_mapValues (f : V → W) (m : IterMap K V) (k : K) :
    (m.erase k).mapValues f = (m.mapValues f).erase k := by
  ext1
  change (m.entries.filter _).map _ = (m.entries.map _).filter _
  rw [List.filter_map]
  rfl

theorem insert_entries_perm {P : Placement K V} {m : IterMap K V} {k : K} {v : V}
    (h : m.contains k = false) : (m.insert P k v).entries.Perm ((k, v) :: m.entries) := by
  rw [insert, dif_neg (by simp [h])]
  exact P.place_perm _ _

end MapValues

end IterMap
