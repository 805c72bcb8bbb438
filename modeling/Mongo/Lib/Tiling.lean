import Mathlib

/-!
# Tilings of a half-open range

A list of pieces, each with a lower and an upper bound, *tiles* `[lo, hi)` when the ranges
`[lower c, upper c)` are nonempty and follow one another without gap or overlap from `lo` up to
`hi`.  Chunk maps of a sharded collection are tilings of the shard-key space, and so are the
coalesced ranges built from them; the facts below are the ones every argument about them uses.

* `Tiles.pairwise_le` — a piece ends before any later piece starts.
* `Tiles.exists_mem` / `Tiles.exists_mem_upper` — every point of `[lo, hi)` lies in a piece,
  and every point of `(lo, hi]` is the upper end or an inner point of one.
* `Tiles.eq_of_overlap` — two overlapping pieces of one tiling are the same piece.
* `Tiles.eq_of_subset` — a tiling contained in another tiling of the same range is that tiling.
* `tiles_append` — a tiling splits at the upper end of any of its prefixes.
-/

namespace Tiling

variable {κ α : Type*} [LinearOrder κ]

/-- `cs` tiles `[lo, hi)` for the bounds `lower` and `upper`. -/
def Tiles (lower upper : α → κ) : κ → κ → List α → Prop
  | lo, hi, [] => lo = hi
  | lo, hi, c :: cs => lower c = lo ∧ lower c < upper c ∧ Tiles lower upper (upper c) hi cs

instance decidableTiles (lower upper : α → κ) :
    ∀ (lo hi : κ) (cs : List α), Decidable (Tiles lower upper lo hi cs)
  | lo, hi, [] => inferInstanceAs (Decidable (lo = hi))
  | _, hi, c :: cs =>
      have := decidableTiles lower upper (upper c) hi cs
      inferInstanceAs (Decidable (_ ∧ _ ∧ _))

variable {lower upper : α → κ}

@[simp] theorem tiles_nil {lo hi : κ} : Tiles lower upper lo hi [] ↔ lo = hi := Iff.rfl

theorem tiles_cons {lo hi : κ} {c : α} {cs : List α} :
    Tiles lower upper lo hi (c :: cs) ↔
      lower c = lo ∧ lower c < upper c ∧ Tiles lower upper (upper c) hi cs := Iff.rfl

theorem Tiles.le {lo hi : κ} {cs : List α} (h : Tiles lower upper lo hi cs) : lo ≤ hi := by
  induction cs generalizing lo with
  | nil => exact le_of_eq h
  | cons c cs ih =>
      obtain ⟨rfl, hlt, htl⟩ := h
      exact le_trans (le_of_lt hlt) (ih htl)

/-- Every piece lies inside the tiled range. -/
theorem Tiles.bounds {lo hi : κ} {cs : List α} (h : Tiles lower upper lo hi cs) :
    ∀ c ∈ cs, lo ≤ lower c ∧ upper c ≤ hi := by
  induction cs generalizing lo with
  | nil => simp
  | cons c cs ih =>
      obtain ⟨rfl, hlt, htl⟩ := h
      intro d hd
      rcases List.mem_cons.mp hd with rfl | hd
      · exact ⟨le_refl _, htl.le⟩
      · obtain ⟨h₁, h₂⟩ := ih htl d hd
        exact ⟨le_trans (le_of_lt hlt) h₁, h₂⟩

/-- **A piece ends no later than any later piece starts.** -/
theorem Tiles.pairwise_le {lo hi : κ} {cs : List α} (h : Tiles lower upper lo hi cs) :
    cs.Pairwise fun c d => upper c ≤ lower d := by
  induction cs generalizing lo with
  | nil => exact List.Pairwise.nil
  | cons c cs ih =>
      obtain ⟨rfl, -, htl⟩ := h
      exact List.Pairwise.cons (fun d hd => (htl.bounds d hd).1) (ih htl)

theorem Tiles.lower_lt_upper {lo hi : κ} {cs : List α} (h : Tiles lower upper lo hi cs) :
    ∀ c ∈ cs, lower c < upper c := by
  induction cs generalizing lo with
  | nil => simp
  | cons c cs ih =>
      obtain ⟨rfl, hlt, htl⟩ := h
      intro d hd
      rcases List.mem_cons.mp hd with rfl | hd
      · exact hlt
      · exact ih htl d hd

/-- Upper bounds strictly increase along a tiling, so it is sorted by them. -/
theorem Tiles.pairwise_upper_lt {lo hi : κ} {cs : List α} (h : Tiles lower upper lo hi cs) :
    cs.Pairwise fun c d => upper c < upper d := by
  refine h.pairwise_le.imp_of_mem ?_
  intro c d _ hd hcd
  exact lt_of_le_of_lt hcd (h.lower_lt_upper d hd)

/-- A tiling never repeats a piece. -/
theorem Tiles.nodup {lo hi : κ} {cs : List α} (h : Tiles lower upper lo hi cs) : cs.Nodup :=
  h.pairwise_upper_lt.imp fun hlt heq => by
    subst heq
    exact lt_irrefl _ hlt

/-- **Every point of `[lo, hi)` lies in a piece.** -/
theorem Tiles.exists_mem {lo hi : κ} {cs : List α} (h : Tiles lower upper lo hi cs) {x : κ}
    (hlo : lo ≤ x) (hhi : x < hi) : ∃ c ∈ cs, lower c ≤ x ∧ x < upper c := by
  induction cs generalizing lo with
  | nil => exact absurd (h ▸ hhi) (not_lt.mpr hlo)
  | cons c cs ih =>
      obtain ⟨rfl, -, htl⟩ := h
      by_cases hx : x < upper c
      · exact ⟨c, List.mem_cons_self .., hlo, hx⟩
      · obtain ⟨d, hd, hdx⟩ := ih htl (not_lt.mp hx)
        exact ⟨d, List.mem_cons_of_mem c hd, hdx⟩

/-- Every point of `(lo, hi]` is inside a piece or its upper end. -/
theorem Tiles.exists_mem_upper {lo hi : κ} {cs : List α} (h : Tiles lower upper lo hi cs)
    {x : κ} (hlo : lo < x) (hhi : x ≤ hi) : ∃ c ∈ cs, lower c < x ∧ x ≤ upper c := by
  induction cs generalizing lo with
  | nil => exact absurd (h ▸ hhi) (not_le.mpr hlo)
  | cons c cs ih =>
      obtain ⟨rfl, -, htl⟩ := h
      by_cases hx : x ≤ upper c
      · exact ⟨c, List.mem_cons_self .., hlo, hx⟩
      · obtain ⟨d, hd, hdx⟩ := ih htl (not_le.mp hx)
        exact ⟨d, List.mem_cons_of_mem c hd, hdx⟩

/-- **Two overlapping pieces of one tiling are the same piece.** -/
theorem Tiles.eq_of_overlap {lo hi : κ} {cs : List α} (h : Tiles lower upper lo hi cs)
    {c d : α} (hc : c ∈ cs) (hd : d ∈ cs) (hcd : lower c < upper d) (hdc : lower d < upper c) :
    c = d := by
  induction cs generalizing lo with
  | nil => simp at hc
  | cons e cs ih =>
      obtain ⟨rfl, -, htl⟩ := h
      have hafter : ∀ f ∈ cs, upper e ≤ lower f := fun f hf => (htl.bounds f hf).1
      rcases List.mem_cons.mp hc with rfl | hc'
      · rcases List.mem_cons.mp hd with rfl | hd'
        · rfl
        · exact absurd (hafter d hd') (not_le.mpr hdc)
      · rcases List.mem_cons.mp hd with rfl | hd'
        · exact absurd (hafter c hc') (not_le.mpr hcd)
        · exact ih htl hc' hd'

/-- Of two pieces of a tiling, the one that ends first ends before the other starts. -/
theorem Tiles.upper_le_lower_of_upper_lt {lo hi : κ} {cs : List α}
    (h : Tiles lower upper lo hi cs) {c d : α} (hc : c ∈ cs) (hd : d ∈ cs)
    (hcd : upper c < upper d) : upper c ≤ lower d := by
  by_contra hdc
  have hlt : lower c < upper d := lt_of_lt_of_le (h.lower_lt_upper c hc) (le_of_lt hcd)
  have heq : c = d := h.eq_of_overlap hc hd hlt (not_le.mp hdc)
  subst heq
  exact lt_irrefl _ hcd

/-- **A tiling contained in another tiling of the same range is that tiling.** -/
theorem Tiles.eq_of_subset {lo hi : κ} {cs ds : List α} (hc : Tiles lower upper lo hi cs)
    (hd : Tiles lower upper lo hi ds) (hsub : ∀ d ∈ ds, d ∈ cs) : ds = cs := by
  induction cs generalizing lo ds with
  | nil =>
      cases ds with
      | nil => rfl
      | cons d ds => exact absurd (hsub d (List.mem_cons_self ..)) List.not_mem_nil
  | cons c cs ih =>
      cases ds with
      | nil =>
          obtain ⟨rfl, hlt, htl⟩ := hc
          exact absurd (hd ▸ htl.le) (not_le.mpr hlt)
      | cons d ds =>
          obtain ⟨hcl, hclt, hctl⟩ := hc
          obtain ⟨hdl, hdlt, hdtl⟩ := hd
          have hdc : d = c := by
            rcases List.mem_cons.mp (hsub d (List.mem_cons_self ..)) with h | h
            · exact h
            · have hle := (hctl.bounds d h).1
              rw [hdl, ← hcl] at hle
              exact absurd hle (not_le.mpr hclt)
          subst hdc
          refine congrArg _ (ih hctl hdtl fun e he => ?_)
          rcases List.mem_cons.mp (hsub e (List.mem_cons_of_mem d he)) with rfl | h
          · exact absurd (hdtl.bounds e he).1 (not_le.mpr hdlt)
          · exact h

/-- The first piece of a tiling starts at its lower end. -/
theorem Tiles.lower_head {lo hi : κ} {cs : List α} (h : Tiles lower upper lo hi cs) :
    ∀ c ∈ cs.head?, lower c = lo := by
  cases cs with
  | nil => simp
  | cons c cs => simpa using h.1

/-- The last piece of a tiling ends at its upper end. -/
theorem Tiles.upper_getLast {lo hi : κ} {cs : List α} (h : Tiles lower upper lo hi cs) :
    ∀ c ∈ cs.getLast?, upper c = hi := by
  induction cs generalizing lo with
  | nil => simp
  | cons c cs ih =>
      obtain ⟨-, -, htl⟩ := h
      cases cs with
      | nil => simpa using htl
      | cons d ds =>
          intro e he
          rw [List.getLast?_cons_cons] at he
          exact ih htl e he

/-- **A tiling splits at the upper end of a nonempty prefix.** -/
theorem tiles_append {lo hi : κ} {xs ys : List α} (hx : xs ≠ []) :
    Tiles lower upper lo hi (xs ++ ys) ↔
      Tiles lower upper lo (upper (xs.getLast hx)) xs ∧
        Tiles lower upper (upper (xs.getLast hx)) hi ys := by
  induction xs generalizing lo with
  | nil => exact absurd rfl hx
  | cons x xs ih =>
      cases xs with
      | nil => simp [tiles_cons, and_assoc]
      | cons y ys' =>
          have hne : y :: ys' ≠ [] := List.cons_ne_nil _ _
          rw [List.cons_append, tiles_cons (c := x), ih hne, List.getLast_cons hne,
            tiles_cons (c := x)]
          simp only [and_assoc]

end Tiling
