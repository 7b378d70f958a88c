/-
  PcmConvert.Proofs.Mix.Rivals — outputs that take what another one borrows. An output that
  no input names borrows its alias, if no output before it took that; otherwise it is filled,
  or silent. So the order of the outputs shows only in an output with a rival: one that takes
  the alias all the same (`rivals`). With its alias taken the output gets a share of its side
  or nothing (`link_of_taken`), which is what it would borrow only if its side has a single
  input (`spared`). Where no output has a rival, or all that have are spared, none of them
  depends on those before it (`settles_of_unrivalled`).

  Whether a low frequency output is made from all inputs depends on no order at all
  (`scan_lfeSynthesized`): it has no alias.
-/

import PcmConvert.Proofs.Mix.Links

namespace PcmConvert.Mix

/-! ## Aliases -/

/-- The side of a surround. -/
def sideOf (b : Position) : Position → Bool := if b.isLeft then Position.isLeft else Position.isRight

theorem isAlias_iff {a b : Position} : a.isAlias b = true ↔
    (a, b) ∈ [(.rearLeft, .sideLeft), (.sideLeft, .rearLeft), (.rearRight, .sideRight), (.sideRight, .rearRight)] := by
  unfold Position.isAlias
  split
  · simp
  · simp
  · simp
  · simp
  · next h1 h2 h3 h4 => simpa using ⟨h1, h2, h3, h4⟩

theorem eq_of_isAlias {a a' b : Position} (h : a.isAlias b = true) (h' : a'.isAlias b = true) : a' = a := by
  rw [isAlias_iff] at h h'
  simp only [List.mem_cons, Prod.mk.injEq, List.not_mem_nil, or_false] at h h'
  rcases h with ⟨rfl, rfl⟩ | ⟨rfl, rfl⟩ | ⟨rfl, rfl⟩ | ⟨rfl, rfl⟩ <;> simp at h' <;> exact h'

theorem sideOf_of_isAlias {a b : Position} (h : a.isAlias b = true) :
    sideOf b a = true ∧ sideOf b b = true ∧ b.isLfe = false := by
  rw [isAlias_iff] at h
  simp only [List.mem_cons, Prod.mk.injEq, List.not_mem_nil, or_false] at h
  rcases h with ⟨rfl, rfl⟩ | ⟨rfl, rfl⟩ | ⟨rfl, rfl⟩ | ⟨rfl, rfl⟩ <;> exact ⟨rfl, rfl, rfl⟩

theorem isAlias_of_isLfe {a b : Position} (h : b.isLfe = true) : a.isAlias b = false := by
  rw [← Bool.not_eq_true]
  intro ha
  rw [(sideOf_of_isAlias ha).2.2] at h
  cases h

variable {α : Type} [Gain α] {mono : MonoRoute α} {f : Flags} {ps : List Position} {a b : Position}

/-! ## One output -/

theorem link_of_forall (h : ∀ x ∈ ps, x.isAlias b = true → t x = t' x) {x : Position} (hx : x ∈ ps) :
    link mono f ps t b x = link mono f ps t' b x := by
  have hkey : ∀ x ∈ ps, (!t x && x.isAlias b) = (!t' x && x.isAlias b) := by
    intro x hx
    cases ha : x.isAlias b with
    | false => simp
    | true => rw [h x hx ha]
  have hany : (ps.any fun x => !t x && x.isAlias b) = ps.any fun x => !t' x && x.isAlias b := by
    rw [Bool.eq_iff_iff, List.any_eq_true, List.any_eq_true]
    constructor
    · rintro ⟨x, hx, hb⟩
      exact ⟨x, hx, hkey x hx ▸ hb⟩
    · rintro ⟨x, hx, hb⟩
      exact ⟨x, hx, (hkey x hx).symm ▸ hb⟩
  unfold link
  rw [hany, hkey x hx]

theorem filled_of_sideOf (h : sideOf b b = true) (x : Position) :
    (filled ps b x : Option α) = if sideOf b x then some (Gain.share (count (sideOf b) ps)) else none := by
  unfold filled
  by_cases hl : b.isLeft = true
  · simp only [sideOf, if_pos hl]
  · have hr : b.isRight = true := by simpa [sideOf, hl] using h
    simp only [sideOf, if_neg hl, if_pos hr]

/-- What an output borrows if its alias is there to be taken. -/
theorem link_of_untaken (hb : isNamed mono ps b = false) (ha : a ∈ ps) (hab : a.isAlias b = true) (x : Position) :
    link mono f ps untaken b x = if x.isAlias b then some 1 else none := by
  have hany : (ps.any fun x => !untaken x && x.isAlias b) = true := List.any_eq_true.mpr ⟨a, ha, by simp [untaken, hab]⟩
  unfold link
  rw [if_neg (by simp [hb]), if_pos hany]
  simp [untaken]

/-- What it gets if its alias is taken: a share of its side, or nothing. -/
theorem link_of_taken (hb : isNamed mono ps b = false) (hab : a.isAlias b = true) (hta : t a = true) (x : Position) :
    link mono f ps t b x =
      if !f.noFillSink && sideOf b x then some (Gain.share (count (sideOf b) ps)) else none := by
  obtain ⟨_, hside, hlfe⟩ := sideOf_of_isAlias hab
  have hany : (ps.any fun x => !t x && x.isAlias b) = false := by
    rw [List.any_eq_false]
    intro y _ hy
    obtain ⟨hty, hyb⟩ := Bool.and_eq_true_iff.mp hy
    rw [eq_of_isAlias hab hyb, hta] at hty
    cases hty
  unfold link
  rw [if_neg (by simp [hb]), if_neg (by simp [hany]), hlfe, filled_of_sideOf hside]
  cases f.noFillSink <;> rfl

/-! ## Rivals -/

/-- No input names `b`, and `c` takes its alias. -/
def rivals (mono : MonoRoute α) (f : Flags) (ps : List Position) (b c : Position) : Bool :=
  !isNamed mono ps b && ps.any fun a => a.isAlias b && (link mono f ps untaken c a).isSome

/-- What fills `b` is a single input. -/
def spared (f : Flags) (ps : List Position) (b : Position) : Bool := !f.noFillSink && count (sideOf b) ps == 1

/-- No output has a rival and is not spared. -/
def Unrivalled (mono : MonoRoute α) (f : Flags) (ps outputs : List Position) : Prop :=
  outputs.Pairwise fun b c =>
    (rivals mono f ps b c = true → spared f ps b = true) ∧ (rivals mono f ps c b = true → spared f ps c = true)

instance (mono : MonoRoute α) (f : Flags) (ps outputs : List Position) : Decidable (Unrivalled mono f ps outputs) :=
  inferInstanceAs (Decidable (List.Pairwise _ _))

theorem rivals_iff {c : Position} : rivals mono f ps b c = true ↔
    isNamed mono ps b = false ∧ ∃ a ∈ ps, a.isAlias b = true ∧ (link mono f ps untaken c a).isSome = true := by
  simp [rivals]

/-- A single input on the side of `b` is the alias of `b`, if that is one of the inputs. -/
theorem eq_of_spared (h : spared f ps b = true) (ha : a ∈ ps) (hab : a.isAlias b = true) {x : Position} (hx : x ∈ ps)
    (hside : sideOf b x = true) : x = a := by
  unfold spared count at h
  obtain ⟨y, hy⟩ := List.length_eq_one_iff.mp (beq_iff_eq.mp (Bool.and_eq_true_iff.mp h).2)
  have hmem {z : Position} (hz : z ∈ ps) (hzs : sideOf b z = true) : z = y :=
    List.mem_singleton.mp (hy ▸ List.mem_filter.mpr ⟨hz, hzs⟩)
  rw [hmem hx hside, hmem ha (sideOf_of_isAlias hab).1]

/-- An output that is spared takes the same, whether its alias is there to be taken or not. -/
theorem link_of_spared (hone : (Gain.share 1 : α) = 1) (hb : isNamed mono ps b = false) (hs : spared f ps b = true)
    (ha : a ∈ ps) (hab : a.isAlias b = true) (hta : t a = true) {x : Position} (hx : x ∈ ps) :
    link mono f ps t b x = link mono f ps untaken b x := by
  rw [link_of_taken hb hab hta, link_of_untaken hb ha hab]
  obtain ⟨hfill, hcount⟩ := Bool.and_eq_true_iff.mp hs
  rw [beq_iff_eq.mp hcount, hone, hfill, Bool.true_and]
  by_cases hxb : x.isAlias b = true
  · rw [if_pos hxb, if_pos (sideOf_of_isAlias hxb).1]
  · rw [if_neg hxb, if_neg]
    intro hside
    exact hxb (eq_of_spared hs ha hab hx hside ▸ hab)

theorem settles_of_unrivalled {outputs : List Position} (hone : (Gain.share 1 : α) = 1)
    (h : Unrivalled mono f ps outputs) : Settles mono f ps outputs := by
  rintro pre b post rfl x hx
  obtain ⟨_, _, hpairs⟩ := List.pairwise_append.mp h
  cases hb : isNamed mono ps b with
  | true => rw [link_of_isNamed hb, link_of_isNamed hb]
  | false =>
    by_cases htaken : ∃ a ∈ ps, a.isAlias b = true ∧ takenBy mono f ps pre a = true
    · obtain ⟨a, ha, hab, hta⟩ := htaken
      obtain ⟨c, hc, hca⟩ := List.any_eq_true.mp hta
      have hs := (hpairs c hc b List.mem_cons_self).2 (rivals_iff.mpr ⟨hb, a, ha, hab, hca⟩)
      exact link_of_spared hone hb hs ha hab hta hx
    · refine link_of_forall (fun y hy hyb => ?_) hx
      show takenBy mono f ps pre y = false
      rw [← Bool.not_eq_true]
      intro hty
      exact htaken ⟨y, hy, hyb, hty⟩

/-! ## All outputs, in any order -/

/-- The positions that are taken after the outputs, if those of `t` were before. -/
def takenAfter (mono : MonoRoute α) (f : Flags) (ps : List Position) (t : Position → Bool) :
    List Position → Position → Bool
  | [] => t
  | b :: r => takenAfter mono f ps (fun a => t a || (link mono f ps t b a).isSome) r

theorem takenAfter_of_taken {t : Position → Bool} (h : t a = true) (outputs : List Position) :
    takenAfter mono f ps t outputs a = true := by
  induction outputs generalizing t with
  | nil => exact h
  | cons b outputs ih => exact ih (by simp [h])

/-- Nothing an output takes is left. -/
theorem takenAfter_of_link {t : Position → Bool} (pre post : List Position)
    (h : (link mono f ps (takenAfter mono f ps t pre) b a).isSome = true) :
    takenAfter mono f ps t (pre ++ b :: post) a = true := by
  induction pre generalizing t with
  | nil => exact takenAfter_of_taken (by simp [show (link mono f ps t b a).isSome = true from h]) post
  | cons c pre ih => exact ih h

theorem scan_sources (t : Position → Bool) (outputs : List Position) :
    (scan mono f (sourcesAt ps t) outputs).sources = sourcesAt ps (takenAfter mono f ps t outputs) := by
  induction outputs generalizing t with
  | nil => rfl
  | cons b outputs ih =>
    rw [scan]
    dsimp only
    rw [links_sourcesAt, take_sourcesAt, ih]
    rfl

theorem scan_rows (t : Position → Bool) (pre post : List Position) :
    (scan mono f (sourcesAt ps t) (pre ++ b :: post)).rows[pre.length]? =
      some (rowOf f b (ps.map (link mono f ps (takenAfter mono f ps t pre) b))) := by
  induction pre generalizing t with
  | nil =>
    rw [List.nil_append, scan]
    dsimp only
    rw [links_sourcesAt]
    rfl
  | cons c pre ih =>
    rw [List.cons_append, scan]
    dsimp only
    rw [links_sourcesAt, take_sourcesAt, List.length_cons, List.getElem?_cons_succ, ih]
    rfl

/-- No output that is made from all inputs depends on those before it. -/
theorem scan_lfeSynthesized (t : Position → Bool) (outputs : List Position) :
    (scan mono f (sourcesAt ps t) outputs).lfeSynthesized =
      outputs.any fun b => synthesizes f b (ps.map (link mono f ps untaken b)) := by
  induction outputs generalizing t with
  | nil => rfl
  | cons b outputs ih =>
    have hown : synthesizes f b (ps.map (link mono f ps t b)) = synthesizes f b (ps.map (link mono f ps untaken b)) := by
      cases hlfe : b.isLfe with
      | false => simp [synthesizes, hlfe]
      | true =>
        have hlink : ps.map (link mono f ps t b) = ps.map (link mono f ps untaken b) := by
          refine List.map_congr_left fun x hx => link_of_forall (fun y _ hy => ?_) hx
          rw [isAlias_of_isLfe hlfe] at hy
          cases hy
        rw [hlink]
    rw [scan]
    dsimp only
    rw [links_sourcesAt, take_sourcesAt, ih, hown, List.any_cons]

/-! ## The row of an output -/

/-- What the output `b` gets of an input at `a`, before its row is scaled: `t` is taken when its turn comes, `t'` in
    the end. -/
def gainOf (mono : MonoRoute α) (f : Flags) (ps outputs : List Position) (t t' : Position → Bool) (b a : Position) : α :=
  (residual outputs f (sourcesAt ps t') b ⟨a, t' a⟩).getD ((link mono f ps t b a).getD 0)

def rowGains (mono : MonoRoute α) (f : Flags) (ps outputs : List Position) (t t' : Position → Bool) (b : Position) :
    List α :=
  ps.map (gainOf mono f ps outputs t t' b)

/-- What is taken is not mixed in again. -/
theorem gainOf_of_taken (mono : MonoRoute α) (f : Flags) (ps outputs : List Position) (t : Position → Bool)
    {t' : Position → Bool} (b : Position) (h : t' a = true) :
    gainOf mono f ps outputs t t' b a = (link mono f ps t b a).getD 0 := by
  unfold gainOf residual
  rw [h]
  rfl

/-- What an output borrows it gets whole. -/
theorem gainOf_of_untaken {outputs : List Position} {t' : Position → Bool} (hb : isNamed mono ps b = false) (ha : a ∈ ps)
    (hab : a.isAlias b = true) (ht' : ∀ x, (link mono f ps untaken b x).isSome = true → t' x = true) :
    gainOf mono f ps outputs untaken t' b a = 1 := by
  have hlink : link mono f ps untaken b a = some 1 := by rw [link_of_untaken hb ha hab, if_pos hab]
  rw [gainOf_of_taken _ _ _ _ _ _ (ht' a (by rw [hlink]; rfl)), hlink]
  rfl

/-- With its alias taken an output that is filled gets the same of all inputs on its side. -/
theorem gainOf_share {outputs : List Position} {t t' : Position → Bool} (hb : isNamed mono ps b = false)
    (hab : a.isAlias b = true) (hta : t a = true) (ht' : ∀ x, (link mono f ps t b x).isSome = true → t' x = true)
    (hfill : f.noFillSink = false) {x : Position} (hx : sideOf b x = true) :
    gainOf mono f ps outputs t t' b x = Gain.share (count (sideOf b) ps) := by
  have hlink : link mono f ps t b x = some (Gain.share (count (sideOf b) ps)) := by
    rw [link_of_taken hb hab hta, hfill, hx]
    rfl
  rw [gainOf_of_taken _ _ _ _ _ _ (ht' x (by rw [hlink]; rfl)), hlink]
  rfl

/-- The row of an output goes by what is taken when its turn comes and in the end. -/
theorem remix_row_any (ps pre post : List Position) (f : Flags) (b : Position) :
    (remix ps (pre ++ b :: post) f : Matrix α).rows[pre.length]? =
      let mono : MonoRoute α := monoRoute (pre ++ b :: post) f
      let t := takenAfter mono f ps untaken pre
      let t' := takenAfter mono f ps untaken (pre ++ b :: post)
      some (ps.map fun a => (residual (pre ++ b :: post) f (sourcesAt ps t') b ⟨a, t' a⟩).getD
        (if synthesizes f b (ps.map (link mono f ps t b)) then Gain.share ps.length else (link mono f ps t b a).getD 0)) := by
  unfold remix
  dsimp only
  rw [sourcesAt_untaken, List.getElem?_zipWith, scan_rows, scan_sources,
    List.getElem?_append_right (Nat.le_refl _), Nat.sub_self, List.getElem?_cons_zero]
  dsimp only
  rw [rowOf_map, mixIn_map]

/-- No output but a low frequency one is made from all inputs. -/
theorem remix_row (ps pre post : List Position) (f : Flags) (hlfe : b.isLfe = false) :
    (remix ps (pre ++ b :: post) f : Matrix α).rows[pre.length]? =
      let mono : MonoRoute α := monoRoute (pre ++ b :: post) f
      some (rowGains mono f ps (pre ++ b :: post) (takenAfter mono f ps untaken pre)
        (takenAfter mono f ps untaken (pre ++ b :: post)) b) := by
  have hsynth (ls : List (Option α)) : synthesizes f b ls = false := by simp [synthesizes, hlfe]
  rw [remix_row_any]
  simp only [hsynth]
  rfl

end PcmConvert.Mix
