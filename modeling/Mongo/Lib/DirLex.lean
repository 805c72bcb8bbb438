import Mathlib

/-!
# Lexicographic orders with a direction per position

A compound index orders its keys lexicographically, each field ascending or descending.  Here a
direction is `1` (upwards) or `-1` (downwards): `DirLt d x y` says that `x` comes before `y` read
in direction `d`, and `LexLt ds xs ys` is the lexicographic order that reads position `i` in
direction `ds[i]`.

A *bound* is a list of values, each inclusive or exclusive: `BeforeBound ds xs bound` says that
`xs` comes before the bound, where a value equal to an exclusive element of the bound lies
before it.  This is how a seek to "the first key at or after a prefix and some starts" is read.

* `LexLt.head_dirLe` — the first position of a larger list is not before the smaller one's;
* `LexLt.eq_prefix_of_beforeBound` — a list after `pre ++ xs` and before a bound that begins
  with `pre` shares the prefix `pre`;
* `LexLt.eq_prefix_of_dirLe` — a list after `pre ++ xs` whose first positions are each at most
  those of `pre` shares the prefix;
* `BeforeBound.of_lexLt` — a list before one that is before a bound is before the bound;
* `beforeBound_prefix_iff` — against a bound that begins with a list's own prefix, only the rest
  of the list counts;
* `lexLt_map_neg` — reading every position the other way reverses the order.

The orders are decidable, so that a sorted index or a seek can be computed.
-/

namespace DirLex

variable {V : Type} [LinearOrder V]

/-- `x` comes before `y` read in direction `d`. -/
def DirLt (d : ℤ) (x y : V) : Prop :=
  (d = 1 ∧ x < y) ∨ (d = -1 ∧ y < x)

/-- `x` comes before `y`, or is `y`, read in direction `d`. -/
def DirLe (d : ℤ) (x y : V) : Prop :=
  DirLt d x y ∨ x = y

/-- A direction: upwards or downwards. -/
def IsDir (d : ℤ) : Prop :=
  d = 1 ∨ d = -1

section Dir

variable {d : ℤ} {x y z : V}

theorem DirLt.irrefl (x : V) : ¬ DirLt d x x := by
  rintro (⟨-, h⟩ | ⟨-, h⟩) <;> exact lt_irrefl x h

theorem DirLt.trans (h₁ : DirLt d x y) (h₂ : DirLt d y z) : DirLt d x z := by
  rcases h₁ with ⟨rfl, h₁⟩ | ⟨rfl, h₁⟩
  · rcases h₂ with ⟨-, h₂⟩ | ⟨h, -⟩
    · exact Or.inl ⟨rfl, lt_trans h₁ h₂⟩
    · exact absurd h (by decide)
  · rcases h₂ with ⟨h, -⟩ | ⟨-, h₂⟩
    · exact absurd h (by decide)
    · exact Or.inr ⟨rfl, lt_trans h₂ h₁⟩

theorem DirLt.asymm (h : DirLt d x y) : ¬ DirLt d y x :=
  fun h' => DirLt.irrefl x (h.trans h')

theorem DirLt.ne (h : DirLt d x y) : x ≠ y := by
  rintro rfl
  exact DirLt.irrefl x h

theorem DirLt.trichotomy (hd : IsDir d) (x y : V) : DirLt d x y ∨ x = y ∨ DirLt d y x := by
  rcases hd with rfl | rfl
  · rcases lt_trichotomy x y with h | h | h
    exacts [Or.inl (Or.inl ⟨rfl, h⟩), Or.inr (Or.inl h), Or.inr (Or.inr (Or.inl ⟨rfl, h⟩))]
  · rcases lt_trichotomy x y with h | h | h
    exacts [Or.inr (Or.inr (Or.inr ⟨rfl, h⟩)), Or.inr (Or.inl h), Or.inl (Or.inr ⟨rfl, h⟩)]

theorem DirLe.refl (x : V) : DirLe d x x :=
  Or.inr rfl

theorem DirLe.trans (h₁ : DirLe d x y) (h₂ : DirLe d y z) : DirLe d x z := by
  rcases h₁ with h₁ | rfl
  · rcases h₂ with h₂ | rfl
    · exact Or.inl (h₁.trans h₂)
    · exact Or.inl h₁
  · exact h₂

theorem DirLt.trans_le (h₁ : DirLt d x y) (h₂ : DirLe d y z) : DirLt d x z := by
  rcases h₂ with h₂ | rfl
  · exact h₁.trans h₂
  · exact h₁

theorem DirLe.trans_lt (h₁ : DirLe d x y) (h₂ : DirLt d y z) : DirLt d x z := by
  rcases h₁ with h₁ | rfl
  · exact h₁.trans h₂
  · exact h₂

theorem DirLe.not_dirLt (h : DirLe d y x) : ¬ DirLt d x y :=
  fun h' => DirLt.irrefl x (h'.trans_le h)

theorem not_dirLt_iff (hd : IsDir d) : ¬ DirLt d x y ↔ DirLe d y x := by
  constructor
  · intro h
    rcases DirLt.trichotomy hd x y with h' | rfl | h'
    · exact absurd h' h
    · exact DirLe.refl x
    · exact Or.inl h'
  · exact DirLe.not_dirLt

end Dir

/-! ## Lexicographic order and bounds -/

/-- The lexicographic order reading position `i` in direction `ds[i]`. -/
def LexLt : List ℤ → List V → List V → Prop
  | d :: ds, x :: xs, y :: ys => DirLt d x y ∨ (x = y ∧ LexLt ds xs ys)
  | _, _, _ => False

/-- `xs` comes before `bound`: at the first position where they differ `xs` comes first, or it
meets an exclusive element of the bound first. -/
def BeforeBound : List ℤ → List V → List (V × Bool) → Prop
  | d :: ds, x :: xs, (y, inclusive) :: bound =>
      DirLt d x y ∨ (x = y ∧ (inclusive = false ∨ BeforeBound ds xs bound))
  | _, _, _ => False

variable {d : ℤ} {ds : List ℤ} {x y : V} {xs ys : List V}

@[simp] theorem lexLt_cons :
    LexLt (d :: ds) (x :: xs) (y :: ys) ↔ DirLt d x y ∨ (x = y ∧ LexLt ds xs ys) :=
  Iff.rfl

@[simp] theorem beforeBound_cons {inclusive : Bool} {bound : List (V × Bool)} :
    BeforeBound (d :: ds) (x :: xs) ((y, inclusive) :: bound) ↔
      DirLt d x y ∨ (x = y ∧ (inclusive = false ∨ BeforeBound ds xs bound)) :=
  Iff.rfl

/-- The first position of a larger list is not before the smaller one's. -/
theorem LexLt.head_dirLe (h : LexLt (d :: ds) (x :: xs) (y :: ys)) : DirLe d x y := by
  rcases h with h | ⟨rfl, -⟩
  · exact Or.inl h
  · exact DirLe.refl x

/-- The first position of a larger list is not before the smaller one's, read off `head?`. -/
theorem LexLt.dirLe_of_head? (h : LexLt ds xs ys) (hd : ds.head? = some d) (hx : xs.head? = some x)
    (hy : ys.head? = some y) : DirLe d x y := by
  match ds, xs, ys, hd, hx, hy with
  | _ :: _, _ :: _, _ :: _, rfl, rfl, rfl => exact h.head_dirLe

/-- A list is larger than another only if it is not empty. -/
theorem LexLt.ne_nil_right (h : LexLt ds xs ys) : ys ≠ [] := by
  rintro rfl
  match ds, xs, h with
  | [], _, h => exact h.elim
  | _ :: _, [], h => exact h.elim
  | _ :: _, _ :: _, h => exact h.elim

/-- A list after `x :: xs` and before an exclusive `x` begins with `x`. -/
theorem LexLt.eq_cons_of_beforeBound_exclusive (h : LexLt (d :: ds) (x :: xs) ys)
    (hbefore : BeforeBound (d :: ds) ys [(x, false)]) : ∃ zs, ys = x :: zs ∧ LexLt ds xs zs := by
  match ys, h, hbefore with
  | y :: zs, h, hbefore =>
      rcases h with hxy | ⟨rfl, hlt⟩
      · rcases hbefore with hyx | ⟨rfl, -⟩
        · exact absurd hyx hxy.asymm
        · exact absurd hxy (DirLt.irrefl _)
      · exact ⟨zs, rfl, hlt⟩

/-- **A list between `pre ++ xs` and a bound that begins with `pre` shares the prefix `pre`.** -/
theorem LexLt.eq_prefix_of_beforeBound {bound : List (V × Bool)} :
    ∀ {ds : List ℤ} {pre xs ys : List V}, pre.length ≤ ds.length →
      LexLt ds (pre ++ xs) ys → BeforeBound ds ys (pre.map (·, true) ++ bound) →
      ∃ zs, ys = pre ++ zs ∧ LexLt (ds.drop pre.length) xs zs ∧
        BeforeBound (ds.drop pre.length) zs bound
  | _, [], _, _, _, hlt, hbefore => ⟨_, rfl, hlt, hbefore⟩
  | [], _ :: _, _, _, hlen, _, _ => absurd hlen (by simp)
  | _ :: _, _ :: _, _, [], _, hlt, _ => hlt.elim
  | d :: ds, p :: pre, xs, y :: ys, hlen, hlt, hbefore => by
      simp only [List.cons_append, List.map_cons, lexLt_cons, beforeBound_cons] at hlt hbefore
      rcases hbefore with hyp | ⟨rfl, hrest⟩
      · rcases hlt with hpy | ⟨rfl, -⟩
        · exact absurd hyp hpy.asymm
        · exact absurd hyp (DirLt.irrefl _)
      · rcases hlt with hpy | ⟨-, hlt⟩
        · exact absurd hpy (DirLt.irrefl _)
        · rcases hrest with h | hrest
          · exact absurd h (by decide)
          · obtain ⟨zs, rfl, hzs, hb⟩ :=
              LexLt.eq_prefix_of_beforeBound (by simpa using hlen) hlt hrest
            exact ⟨zs, rfl, hzs, hb⟩

/-- **A list after `pre ++ xs` whose first positions are each at most those of `pre` shares the
prefix `pre`.** -/
theorem LexLt.eq_prefix_of_dirLe :
    ∀ {ds : List ℤ} {pre xs ys : List V},
      LexLt ds (pre ++ xs) ys →
      (∀ i (hi : i < pre.length) (hy : i < ys.length), DirLe (ds.getD i 0) ys[i] pre[i]) →
      ∃ zs, ys = pre ++ zs ∧ LexLt (ds.drop pre.length) xs zs
  | _, [], _, _, hlt, _ => ⟨_, rfl, hlt⟩
  | [], _ :: _, _, _, hlt, _ => hlt.elim
  | _ :: _, _ :: _, _, [], hlt, _ => hlt.elim
  | d :: ds, p :: pre, xs, y :: ys, hlt, hle => by
      simp only [List.cons_append, lexLt_cons] at hlt
      have hyp : DirLe d y p := hle 0 (by simp) (by simp)
      rcases hlt with hpy | ⟨rfl, hlt⟩
      · exact absurd hpy hyp.not_dirLt
      · obtain ⟨zs, rfl, hzs⟩ := LexLt.eq_prefix_of_dirLe hlt fun i hi hy =>
          hle (i + 1) (by simpa using hi) (by simpa using hy)
        exact ⟨zs, rfl, hzs⟩

/-- A list before a bound meets, at some position, a value before that position's bound element
or equal to an exclusive one. -/
theorem BeforeBound.exists_before :
    ∀ {ds : List ℤ} {ys : List V} {bound : List (V × Bool)}, BeforeBound ds ys bound →
      ∃ i, ∃ (hy : i < ys.length) (hb : i < bound.length),
        DirLt (ds.getD i 0) ys[i] bound[i].1 ∨
          (ys[i] = bound[i].1 ∧ bound[i].2 = false)
  | [], _, _, h => h.elim
  | _ :: _, [], _, h => h.elim
  | _ :: _, _ :: _, [], h => h.elim
  | d :: ds, y :: ys, (b, inclusive) :: bound, h => by
      rcases h with h | ⟨rfl, h | h⟩
      · exact ⟨0, by simp, by simp, Or.inl h⟩
      · exact ⟨0, by simp, by simp, Or.inr ⟨rfl, h⟩⟩
      · obtain ⟨i, hy, hb, hi⟩ := BeforeBound.exists_before h
        exact ⟨i + 1, by simpa using hy, by simpa using hb, by simpa using hi⟩

/-! ## Deciding the orders, and moving along them -/

instance instDecidableDirLt (d : ℤ) (x y : V) : Decidable (DirLt d x y) :=
  inferInstanceAs (Decidable ((d = 1 ∧ x < y) ∨ (d = -1 ∧ y < x)))

instance instDecidableLexLt : (ds : List ℤ) → (xs ys : List V) → Decidable (LexLt ds xs ys)
  | d :: ds, x :: xs, y :: ys =>
      haveI := instDecidableLexLt ds xs ys
      inferInstanceAs (Decidable (DirLt d x y ∨ (x = y ∧ LexLt ds xs ys)))
  | [], _, _ => isFalse fun h => h.elim
  | _ :: _, [], _ => isFalse fun h => h.elim
  | _ :: _, _ :: _, [] => isFalse fun h => h.elim

instance instDecidableBeforeBound :
    (ds : List ℤ) → (xs : List V) → (bound : List (V × Bool)) → Decidable (BeforeBound ds xs bound)
  | d :: ds, x :: xs, (y, inclusive) :: bound =>
      haveI := instDecidableBeforeBound ds xs bound
      inferInstanceAs
        (Decidable (DirLt d x y ∨ (x = y ∧ (inclusive = false ∨ BeforeBound ds xs bound))))
  | [], _, _ => isFalse fun h => h.elim
  | _ :: _, [], _ => isFalse fun h => h.elim
  | _ :: _, _ :: _, [] => isFalse fun h => h.elim

/-- **Being before a bound is closed downwards**: a list before one that is before a bound is
before it too. -/
theorem BeforeBound.of_lexLt :
    ∀ {ds : List ℤ} {xs ys : List V} {bound : List (V × Bool)},
      LexLt ds xs ys → BeforeBound ds ys bound → BeforeBound ds xs bound
  | d :: ds, x :: xs, y :: ys, (b, inclusive) :: bound, hlt, hb => by
      rcases hlt with hxy | ⟨rfl, hlt⟩
      · rcases hb with hyb | ⟨rfl, -⟩
        · exact Or.inl (hxy.trans hyb)
        · exact Or.inl hxy
      · rcases hb with hxb | ⟨rfl, hrest⟩
        · exact Or.inl hxb
        · exact Or.inr ⟨rfl, hrest.imp id (BeforeBound.of_lexLt hlt)⟩
  | [], _, _, _, hlt, _ => hlt.elim
  | _ :: _, [], _, _, hlt, _ => hlt.elim
  | _ :: _, _ :: _, [], _, hlt, _ => hlt.elim
  | _ :: _, _ :: _, _ :: _, [], _, hb => hb.elim

/-- A bound that begins with `pre`, each element inclusive, is met by `pre ++ ys` where `ys`
meets the rest of it. -/
theorem beforeBound_prefix_iff (bound : List (V × Bool)) :
    ∀ (ds : List ℤ) (pre ys : List V), pre.length ≤ ds.length →
      (BeforeBound ds (pre ++ ys) (pre.map (·, true) ++ bound) ↔
        BeforeBound (ds.drop pre.length) ys bound)
  | _, [], _, _ => Iff.rfl
  | [], _ :: _, _, hlen => absurd hlen (by simp)
  | d :: ds, p :: pre, ys, hlen => by
      simp only [List.cons_append, List.map_cons, beforeBound_cons, DirLt.irrefl, true_and,
        Bool.true_eq_false, false_or, List.length_cons, List.drop_succ_cons]
      exact beforeBound_prefix_iff bound ds pre ys (by simpa using hlen)

theorem dirLt_neg : DirLt (-d) x y ↔ DirLt d y x := by
  unfold DirLt
  constructor
  · rintro (⟨hd, h⟩ | ⟨hd, h⟩)
    · exact Or.inr ⟨by omega, h⟩
    · exact Or.inl ⟨by omega, h⟩
  · rintro (⟨hd, h⟩ | ⟨hd, h⟩)
    · exact Or.inr ⟨by omega, h⟩
    · exact Or.inl ⟨by omega, h⟩

/-- **Reading every position the other way reverses the order**, as a cursor that walks an index
backwards does. -/
theorem lexLt_map_neg : ∀ {ds : List ℤ} {xs ys : List V},
    LexLt (ds.map (- ·)) xs ys ↔ LexLt ds ys xs
  | d :: ds, x :: xs, y :: ys => by
      simp only [List.map_cons, lexLt_cons, dirLt_neg, lexLt_map_neg, eq_comm]
  | [], _, _ => Iff.rfl
  | _ :: _, [], [] => Iff.rfl
  | _ :: _, [], _ :: _ => Iff.rfl
  | _ :: _, _ :: _, [] => Iff.rfl

end DirLex
