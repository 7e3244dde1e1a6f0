import Mathlib.Init

/-!
# Text formats

A text format prints values, and reads one back from the front of a text. Reading inverts printing
whatever comes after the value, as long as that does not look like more of it (`Stops`): a number
must not be followed by a digit. The property is a field of the structure, so a format that is put
together from others by the combinators here reads back what it prints: values between literals
(`after`, `before`, `followedBy`), lists, and values under another representation (`imap`).
-/

structure TextFormat (α : Type) where
  print : α → List Char
  read : List Char → Option (α × List Char)
  Stops : List Char → Prop
  read_print : ∀ a rest, Stops rest → read (print a ++ rest) = some (a, rest)

namespace TextFormat

variable {α β : Type}

/-! ## Numbers -/

/-- No digit comes next. -/
def NoDigit (rest : List Char) : Prop := ∀ c ∈ rest.head?, c.isDigit = false

theorem noDigit_append {s : List Char} {c : Char} (h : s.head? = some c) (hc : c.isDigit = false)
    (rest : List Char) : NoDigit (s ++ rest) := by
  intro c' hc'
  rw [List.head?_append, h] at hc'
  obtain rfl := Option.some.inj hc'
  exact hc

theorem takeWhile_digits (n : Nat) {rest : List Char} (h : NoDigit rest) :
    (Nat.toDigits 10 n ++ rest).takeWhile Char.isDigit = Nat.toDigits 10 n ∧
      (Nat.toDigits 10 n ++ rest).dropWhile Char.isDigit = rest := by
  have hdigits : ∀ c ∈ Nat.toDigits 10 n, c.isDigit = true := fun c hc =>
    Nat.isDigit_of_mem_toDigits (Nat.succ_pos 9) (Nat.le_refl 10) hc
  rw [List.takeWhile_append_of_pos hdigits, List.dropWhile_append_of_pos hdigits]
  cases rest with
  | nil => simp
  | cons c rest =>
    have hc : c.isDigit = false := h c (Option.mem_some_self c)
    simp [hc]

/-- Decimal digits. -/
def decimal : TextFormat Nat where
  print := Nat.toDigits 10
  read t :=
    match t.takeWhile Char.isDigit with
    | [] => none
    | ds => some (Nat.ofDigitChars 10 ds 0, t.dropWhile Char.isDigit)
  Stops := NoDigit
  read_print := by
    intro n rest h
    -- the digits are read up to the first character that is none
    obtain ⟨htake, hdrop⟩ := takeWhile_digits n h
    rw [htake, hdrop]
    split
    · next hnil => exact absurd hnil Nat.toDigits_ne_nil
    · rw [Nat.ofDigitChars_ten_toDigits]

/-- An integer, with a minus sign when it is negative. -/
def printInt : Int → List Char
  | .ofNat n => Nat.toDigits 10 n
  | .negSucc n => '-' :: Nat.toDigits 10 (n + 1)

def readInt : List Char → Option (Int × List Char)
  | '-' :: t => (decimal.read t).map fun p => (-(p.1 : Int), p.2)
  | t => (decimal.read t).map fun p => ((p.1 : Int), p.2)

def integer : TextFormat Int where
  print := printInt
  read := readInt
  Stops := NoDigit
  read_print := by
    intro x rest h
    cases x with
    | negSucc n =>
      have hread : decimal.read (Nat.toDigits 10 (n + 1) ++ rest) = some (n + 1, rest) :=
        decimal.read_print (n + 1) rest h
      simp only [printInt, List.cons_append, readInt, hread, Option.map_some]
      rfl
    | ofNat n =>
      have hread : decimal.read (Nat.toDigits 10 n ++ rest) = some (n, rest) :=
        decimal.read_print n rest h
      -- the first character is a digit, so it is not the sign
      have hsign : ∀ t, Nat.toDigits 10 n ++ rest ≠ '-' :: t := by
        intro t heq
        cases hdigits : Nat.toDigits 10 n with
        | nil => exact Nat.toDigits_ne_nil hdigits
        | cons c ds =>
          have hc : c.isDigit = true := Nat.isDigit_of_mem_toDigits (Nat.succ_pos 9)
            (Nat.le_refl 10) (hdigits ▸ List.mem_cons_self)
          rw [hdigits] at heq
          obtain rfl := (List.cons.inj heq).1
          exact absurd hc (by decide)
      simp only [printInt]
      unfold readInt
      split
      · next t heq => exact absurd heq (hsign t)
      · rw [hread]
        rfl

/-! ## Combinators -/

/-- The value comes after a literal. -/
def after (s : List Char) (f : TextFormat α) : TextFormat α where
  print a := s ++ f.print a
  read t := if s.isPrefixOf t then f.read (t.drop s.length) else none
  Stops := f.Stops
  read_print := by
    intro a rest h
    have hprefix : s.isPrefixOf (s ++ f.print a ++ rest) = true := by
      rw [List.append_assoc]
      exact List.isPrefixOf_iff_prefix.mpr (List.prefix_append _ _)
    rw [if_pos hprefix, List.append_assoc, List.drop_left]
    exact f.read_print a rest h

/-- The value comes before a literal, which it cannot swallow. -/
def before (f : TextFormat α) (s : List Char) (hs : ∀ rest, f.Stops (s ++ rest)) :
    TextFormat α where
  print a := f.print a ++ s
  read t := (f.read t).bind fun p =>
    if s.isPrefixOf p.2 then some (p.1, p.2.drop s.length) else none
  Stops _ := True
  read_print := by
    intro a rest _
    rw [List.append_assoc, f.read_print a _ (hs rest), Option.bind_some,
      if_pos (List.isPrefixOf_iff_prefix.mpr (List.prefix_append _ _)), List.drop_left]

/-- Two values with a literal in between, which the first cannot swallow. -/
def followedBy (f : TextFormat α) (s : List Char) (hs : ∀ rest, f.Stops (s ++ rest))
    (g : TextFormat β) : TextFormat (α × β) where
  print p := f.print p.1 ++ s ++ g.print p.2
  read t := (f.read t).bind fun p =>
    if s.isPrefixOf p.2 then (g.read (p.2.drop s.length)).map fun q => ((p.1, q.1), q.2) else none
  Stops := g.Stops
  read_print := by
    intro p rest h
    rw [List.append_assoc, List.append_assoc, f.read_print p.1 _ (hs _), Option.bind_some,
      if_pos (List.isPrefixOf_iff_prefix.mpr (List.prefix_append _ _)), List.drop_left,
      g.read_print p.2 rest h]
    rfl

/-- Values that are represented by others. -/
def imap (f : TextFormat α) (repr : β → α) (of : α → β) (h : ∀ b, of (repr b) = b) :
    TextFormat β where
  print b := f.print (repr b)
  read t := (f.read t).map fun p => (of p.1, p.2)
  Stops := f.Stops
  read_print := by
    intro b rest hrest
    rw [f.read_print (repr b) rest hrest, Option.map_some, h]

/-- Only some of the values. -/
def restrict (f : TextFormat α) (p : α → Prop) [DecidablePred p] : TextFormat {a // p a} where
  print a := f.print a
  read t := (f.read t).bind fun q => if h : p q.1 then some (⟨q.1, h⟩, q.2) else none
  Stops := f.Stops
  read_print := by
    intro a rest hrest
    rw [f.read_print a rest hrest, Option.bind_some, dif_pos a.2]

section Print

variable (f : TextFormat α) (g : TextFormat β) (s : List Char)

theorem after_print (a : α) : (f.after s).print a = s ++ f.print a := rfl

theorem before_print (hs : ∀ rest, f.Stops (s ++ rest)) (a : α) :
    (f.before s hs).print a = f.print a ++ s := rfl

theorem followedBy_print (hs : ∀ rest, f.Stops (s ++ rest)) (p : α × β) :
    (f.followedBy s hs g).print p = f.print p.1 ++ (s ++ g.print p.2) :=
  List.append_assoc _ _ _

theorem imap_print (repr : β → α) (of : α → β) (h : ∀ b, of (repr b) = b) (b : β) :
    (f.imap repr of h).print b = f.print (repr b) := rfl

end Print

/-! ## Lists -/

/-- Read values until none follows; `fuel` bounds their number. -/
def readMany (f : TextFormat α) : Nat → List Char → List α × List Char
  | 0, t => ([], t)
  | fuel + 1, t =>
      match f.read t with
      | none => ([], t)
      | some (a, rest) =>
          let (as, rest') := readMany f fuel rest
          (a :: as, rest')

/-- Induction on the values. -/
theorem readMany_flatMap (f : TextFormat α) (hf : ∀ rest, f.Stops rest) {rest : List Char}
    (hrest : f.read rest = none) (as : List α) {fuel : Nat} (hfuel : as.length ≤ fuel) :
    f.readMany fuel (as.flatMap f.print ++ rest) = (as, rest) := by
  induction as generalizing fuel with
  | nil =>
    cases fuel with
    | zero => rfl
    | succ fuel => simp [readMany, hrest]
  | cons a as ih =>
    cases fuel with
    -- as many values as there is fuel for
    | zero => exact absurd hfuel (Nat.not_succ_le_zero _)
    | succ fuel =>
      have hread : f.read (f.print a ++ (as.flatMap f.print ++ rest)) =
          some (a, as.flatMap f.print ++ rest) := f.read_print a _ (hf _)
      rw [List.flatMap_cons, List.append_assoc]
      simp only [readMany, hread, ih (Nat.le_of_succ_le_succ hfuel)]

theorem length_le_flatMap (f : TextFormat α) (hne : ∀ a, f.print a ≠ []) (as : List α) :
    as.length ≤ (as.flatMap f.print).length := by
  induction as with
  | nil => exact Nat.le_refl 0
  | cons a as ih =>
    have hpos := List.length_pos_iff.mpr (hne a)
    rw [List.flatMap_cons, List.length_append, List.length_cons]
    omega

/-- Values that end by themselves, one after another, until none follows. -/
def many (f : TextFormat α) (hf : ∀ rest, f.Stops rest) (hne : ∀ a, f.print a ≠ []) :
    TextFormat (List α) where
  print as := as.flatMap f.print
  read t := some (f.readMany t.length t)
  Stops rest := f.read rest = none
  read_print := by
    intro as rest hrest
    have hfuel : as.length ≤ (as.flatMap f.print ++ rest).length := by
      have hle := f.length_le_flatMap hne as
      rw [List.length_append]
      omega
    rw [f.readMany_flatMap hf hrest as hfuel]

/-- A value that is the whole text. -/
def readAll (f : TextFormat α) (t : List Char) : Option α :=
  match f.read t with
  | some (a, []) => some a
  | _ => none

theorem readAll_print (f : TextFormat α) (h : f.Stops []) (a : α) :
    f.readAll (f.print a) = some a := by
  have hread := f.read_print a [] h
  rw [List.append_nil] at hread
  unfold readAll
  rw [hread]

end TextFormat
