import Mathlib.Algebra.Field.ZMod
import Mathlib.Data.Matrix.Mul
import Mathlib.GroupTheory.Index
import Mathlib.SetTheory.Cardinal.Finite

/-!
# Universal families of hash functions

A family `h : A → K → I` is a set `A` of draws, each of which gives every key of `K` an index in
`I`. It is universal if every two distinct keys collide for exactly one in `|I|` of the draws.
Whether it is depends only on which draws make which keys collide (`Universal.of_iff`), fewer keys
do not change it (`Universal.comp`), and several independent draws make a universal family again
(`Universal.pi`). Dot products over a finite field are universal: the draws that make two keys
collide are the kernel of a linear functional that is not zero (`universal_dotProduct`).
-/

namespace UniversalFamily

variable {A A' K K' I I' : Type}

/-- The draws for which two keys collide. -/
def Colliding (h : A → K → I) (x y : K) : Type := {a : A // h a x = h a y}

/-- Any two different keys collide under exactly one draw in `|I|`. -/
def Universal (h : A → K → I) : Prop :=
  ∀ x y, x ≠ y → Nat.card (Colliding h x y) * Nat.card I = Nat.card A

namespace Universal

variable {h : A → K → I} {h' : A' → K' → I'}

/-- The same collisions, under other names for draws, keys and indices. -/
theorem of_iff (hu : Universal h) (eA : A' ≃ A) {eK : K' → K} (hK : Function.Injective eK)
    (hI : Nat.card I' = Nat.card I)
    (hiff : ∀ a x y, h' a x = h' a y ↔ h (eA a) (eK x) = h (eA a) (eK y)) : Universal h' := by
  intro x y hne
  have hcard : Nat.card (Colliding h' x y) = Nat.card (Colliding h (eK x) (eK y)) :=
    Nat.card_congr (eA.subtypeEquiv fun a => hiff a x y)
  rw [hcard, hI, Nat.card_congr eA]
  exact hu (eK x) (eK y) (hK.ne hne)

/-- Keys that are told apart by what is hashed of them. -/
theorem comp (hu : Universal h) {eK : K' → K} (hK : Function.Injective eK) :
    Universal fun a x => h a (eK x) :=
  hu.of_iff (Equiv.refl A) hK rfl fun _ _ _ => Iff.rfl

/-- Independent draws, which collide when each of them does. -/
theorem pi {ι : Type} [Fintype ι] (hu : Universal h) :
    Universal fun (as : ι → A) x i => h (as i) x := by
  intro x y hne
  have hcollide : Colliding (fun (as : ι → A) x i => h (as i) x) x y ≃
      (ι → Colliding h x y) :=
    (Equiv.subtypeEquivRight fun _ => funext_iff).trans
      (Equiv.subtypePiEquivPi (p := fun (_ : ι) a => h a x = h a y))
  rw [Nat.card_congr hcollide, Nat.card_fun, Nat.card_fun, Nat.card_fun, ← Nat.mul_pow, hu x y hne]

end Universal

/-! ## Dot products -/

section DotProduct

variable {ι F : Type} [Fintype ι] [Field F]

/-- Dot products with a vector that is not zero take every value. -/
theorem exists_dotProduct_eq {c : ι → F} (hc : c ≠ 0) (v : F) : ∃ a, a ⬝ᵥ c = v := by
  classical
  obtain ⟨i, hi⟩ := Function.ne_iff.mp hc
  refine ⟨Pi.single i (v / c i), ?_⟩
  rw [single_dotProduct]
  exact div_mul_cancel₀ v hi

/-- The functional that takes the dot product with `c`. -/
def dotWith (c : ι → F) : (ι → F) →+ F where
  toFun a := a ⬝ᵥ c
  map_zero' := zero_dotProduct c
  map_add' a b := add_dotProduct a b c

theorem range_dotWith {c : ι → F} (hc : c ≠ 0) : (dotWith c).range = ⊤ :=
  AddMonoidHom.range_eq_top.mpr (exists_dotProduct_eq hc)

theorem card_ker_dotWith {c : ι → F} (hc : c ≠ 0) :
    Nat.card (dotWith c).ker * Nat.card F = Nat.card (ι → F) := by
  have hindex : (dotWith c).ker.index = Nat.card F := by
    rw [AddSubgroup.index_ker, range_dotWith hc]
    exact Nat.card_congr AddSubgroup.topEquiv.toEquiv
  rw [← hindex]
  exact AddSubgroup.card_mul_index _

/-- **Dot products are universal.** -/
theorem universal_dotProduct : Universal fun (a x : ι → F) => a ⬝ᵥ x := by
  intro x y hne
  have hcollide : ∀ a : ι → F, a ⬝ᵥ x = a ⬝ᵥ y ↔ a ∈ (dotWith (x - y)).ker := by
    intro a
    rw [AddMonoidHom.mem_ker]
    show a ⬝ᵥ x = a ⬝ᵥ y ↔ a ⬝ᵥ (x - y) = 0
    rw [dotProduct_sub, sub_eq_zero]
  have hcard : Nat.card (Colliding (fun (a x : ι → F) => a ⬝ᵥ x) x y) =
      Nat.card (dotWith (x - y)).ker :=
    Nat.card_congr (Equiv.subtypeEquivRight hcollide)
  rw [hcard]
  exact card_ker_dotWith (sub_ne_zero.mpr hne)

end DotProduct

/-! ## Residues -/

section Residues

variable {m k b : Nat}

/-- The numbers below `m` are the residues. -/
theorem bijective_natCast [NeZero m] :
    Function.Bijective fun c : Fin m => ((c : Nat) : ZMod m) := by
  rw [Fintype.bijective_iff_injective_and_card]
  refine ⟨fun c d h => Fin.ext ?_, by rw [Fintype.card_fin, ZMod.card]⟩
  have hmod := (ZMod.natCast_eq_natCast_iff' c d m).mp h
  rwa [Nat.mod_eq_of_lt c.isLt, Nat.mod_eq_of_lt d.isLt] at hmod

noncomputable def residue [NeZero m] : Fin m ≃ ZMod m := Equiv.ofBijective _ bijective_natCast

theorem residue_apply [NeZero m] (c : Fin m) : residue c = ((c : Nat) : ZMod m) := rfl

/-- A vector of numbers below `m` as one of residues. -/
noncomputable def residues [NeZero m] : (Fin k → Fin m) ≃ (Fin k → ZMod m) :=
  Equiv.arrowCongr (Equiv.refl _) residue

theorem residues_dotProduct [NeZero m] (a x : Fin k → Fin m) :
    residues a ⬝ᵥ residues x = ((∑ i, (x i : Nat) * (a i : Nat) : Nat) : ZMod m) := by
  push_cast
  refine Finset.sum_congr rfl fun i _ => ?_
  show residue (a i) * residue (x i) = _
  rw [residue_apply, residue_apply, mul_comm]

/-- **Sums of products modulo a prime are universal**, on keys whose parts are below the prime. -/
theorem universal_sum_mod (hm : m.Prime) (hb : b ≤ m) :
    Universal fun (a : Fin k → Fin m) (x : Fin k → Fin b) =>
      (⟨(∑ i, (x i : Nat) * (a i : Nat)) % m, Nat.mod_lt _ hm.pos⟩ : Fin m) := by
  have : Fact m.Prime := ⟨hm⟩
  have : NeZero m := ⟨hm.ne_zero⟩
  -- below the modulus, different numbers have different residues
  have hkey : Function.Injective fun (x : Fin k → Fin b) =>
      residues fun i => Fin.castLE hb (x i) := fun x y h =>
    funext fun i => Fin.castLE_injective hb (congrFun (residues.injective h) i)
  refine universal_dotProduct.of_iff residues hkey
    (by rw [Nat.card_eq_fintype_card, Nat.card_eq_fintype_card, Fintype.card_fin, ZMod.card]) ?_
  intro a x y
  -- the sum modulo `m` is the dot product of the residues
  rw [residues_dotProduct, residues_dotProduct, ZMod.natCast_eq_natCast_iff']
  exact Fin.ext_iff

end Residues

end UniversalFamily
