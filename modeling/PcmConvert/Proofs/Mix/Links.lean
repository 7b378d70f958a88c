/-
  PcmConvert.Proofs.Mix.Links — what the outputs of a matrix take, position by position. An
  output does not tell inputs at one position apart, so inputs at one position are taken
  together, and a scan of the outputs goes by the positions that are taken by then
  (`links_sourcesAt`, `take_sourcesAt`).

  Only an output that takes an alias looks at what is taken. Where that makes no difference
  (`Settles`) each output takes what it would take if it came first, and the matrix is given
  row by row (`remix_of_settles`).
-/

import PcmConvert.Mix.Matrix

namespace PcmConvert.Mix

variable {α : Type} [Gain α]

/-! ## One output -/

/-- Inputs at the positions `ps`, taken where `t` says. -/
def sourcesAt (ps : List Position) (t : Position → Bool) : List Source := ps.map fun p => ⟨p, t p⟩

/-- Whether an input names the output `b`. -/
def isNamed (mono : MonoRoute α) (ps : List Position) (b : Position) : Bool :=
  ps.any fun a => (named ps.length (mono.gainAt b) a b).isSome

/-- What an output `b` that is filled gets from an input at `a`. -/
def filled (ps : List Position) (b a : Position) : Option α :=
  let part (kind : Position → Bool) : Option α := if kind a then some (Gain.share (count kind ps)) else none
  if b.isLeft then part Position.isLeft
  else if b.isRight then part Position.isRight
  else if b.isCenter then if ps.any Position.isCenter then part Position.isCenter else part Position.isSided
  else none

/-- What the output `b` takes of an input at `a`. -/
def link (mono : MonoRoute α) (f : Flags) (ps : List Position) (t : Position → Bool) (b a : Position) : Option α :=
  if isNamed mono ps b then named ps.length (mono.gainAt b) a b
  else if ps.any fun a => !t a && a.isAlias b then if !t a && a.isAlias b then some 1 else none
  else if b.isLfe || f.noFillSink then none
  else filled ps b a

theorem any_map_isSome {β γ : Type} (l : List β) (g : β → Option γ) :
    (l.map g).any Option.isSome = l.any fun x => (g x).isSome := List.any_map

theorem positions_sourcesAt (ps : List Position) (t : Position → Bool) :
    (sourcesAt ps t).map (·.position) = ps := by
  rw [sourcesAt, List.map_map]
  exact List.map_id ps

theorem length_sourcesAt (ps : List Position) (t : Position → Bool) : (sourcesAt ps t).length = ps.length :=
  List.length_map ..

theorem spread_sourcesAt (kind : Position → Bool) (ps : List Position) (t : Position → Bool) :
    (spread kind (sourcesAt ps t) : List (Option α)) =
      ps.map fun a => if kind a then some (Gain.share (count kind ps)) else none := by
  rw [spread, positions_sourcesAt, sourcesAt, List.map_map]
  rfl

theorem fill_sourcesAt (ps : List Position) (t : Position → Bool) (b : Position) :
    (fill (sourcesAt ps t) b : List (Option α)) = ps.map (filled ps b) := by
  unfold fill filled
  rw [positions_sourcesAt]
  simp only [spread_sourcesAt]
  split
  · rfl
  · split
    · rfl
    · split
      · split
        · rfl
        · rfl
      · rw [sourcesAt, List.map_map]
        rfl

theorem links_sourcesAt (mono : MonoRoute α) (f : Flags) (ps : List Position) (t : Position → Bool) (b : Position) :
    links mono f (sourcesAt ps t) b = ps.map (link mono f ps t b) := by
  have hdirect : (sourcesAt ps t).map (fun s => named (sourcesAt ps t).length (mono.gainAt b) s.position b) =
      ps.map fun a => named ps.length (mono.gainAt b) a b := by
    rw [length_sourcesAt, sourcesAt, List.map_map]
    rfl
  have halias : (sourcesAt ps t).map (fun s => if !s.taken && s.position.isAlias b then some (1 : α) else none) =
      ps.map fun a => if !t a && a.isAlias b then some 1 else none := by
    rw [sourcesAt, List.map_map]
    rfl
  have hany : (ps.map fun a => if !t a && a.isAlias b then some (1 : α) else none).any Option.isSome =
      ps.any fun a => !t a && a.isAlias b := by
    rw [any_map_isSome]
    congr 1
    funext a
    cases !t a && a.isAlias b <;> rfl
  unfold links link
  dsimp only
  rw [hdirect, halias, hany, any_map_isSome, fill_sourcesAt]
  show (if isNamed mono ps b then _ else _) = _
  split
  · rfl
  · split
    · rfl
    · split
      · rw [sourcesAt, List.map_map]
        rfl
      · rfl

omit [Gain α] in
theorem take_sourcesAt (ps : List Position) (t : Position → Bool) (l : Position → Option α) :
    take (sourcesAt ps t) (ps.map l) = sourcesAt ps fun a => t a || (l a).isSome := by
  rw [take, sourcesAt, List.zipWith_map, List.zipWith_self]
  rfl

theorem rowOf_map (f : Flags) (b : Position) (ps : List Position) (l : Position → Option α) :
    rowOf f b (ps.map l) =
      ps.map fun a => if synthesizes f b (ps.map l) then Gain.share ps.length else (l a).getD 0 := by
  unfold rowOf
  split
  · rw [List.map_map, List.length_map]
    rfl
  · rw [List.map_map]
    rfl

omit [Gain α] in
/-- An output that takes something is not made from all inputs. -/
theorem synthesizes_map_of_isSome (f : Flags) (b : Position) {ps : List Position} {l : Position → Option α} {a : Position}
    (ha : a ∈ ps) (h : (l a).isSome = true) : synthesizes f b (ps.map l) = false := by
  have hany : (ps.map l).any Option.isSome = true := by
    rw [any_map_isSome]
    exact List.any_eq_true.mpr ⟨a, ha, h⟩
  unfold synthesizes
  rw [hany, Bool.not_true, Bool.and_false]

theorem mixIn_map (outputs : List Position) (f : Flags) (ps : List Position) (t : Position → Bool) (b : Position)
    (g : Position → α) :
    mixIn outputs f (sourcesAt ps t) b (ps.map g) =
      ps.map fun a => (residual outputs f (sourcesAt ps t) b ⟨a, t a⟩).getD (g a) := by
  have hzip (sources : List Source) :
      (sourcesAt ps t).zipWith (fun s g => (residual outputs f sources b s).getD g) (ps.map g) =
        ps.map fun a => (residual outputs f sources b ⟨a, t a⟩).getD (g a) := by
    rw [sourcesAt, List.zipWith_map, List.zipWith_self]
  exact hzip _

theorem leftOver_sourcesAt (kind : Position → Bool) (ps : List Position) (t : Position → Bool) :
    leftOver kind (sourcesAt ps t) = count kind (ps.filter (!t ·)) := by
  unfold leftOver sourcesAt
  rw [List.filter_map, List.map_map]
  congr 1
  exact List.map_id _

/-! ## All outputs -/

theorem exists_split {β : Type} {l : List β} {i : Nat} {b : β} (h : l[i]? = some b) :
    ∃ as bs, l = as ++ b :: bs ∧ as.length = i := by
  obtain ⟨hi, rfl⟩ := List.getElem?_eq_some_iff.mp h
  refine ⟨l.take i, l.drop (i + 1), ?_, List.length_take_of_le (Nat.le_of_lt hi)⟩
  rw [List.getElem_cons_drop, List.take_append_drop]

/-- No input is taken yet. -/
def untaken : Position → Bool := fun _ => false

/-- The positions that the outputs take if each of them comes first. -/
def takenBy (mono : MonoRoute α) (f : Flags) (ps outputs : List Position) : Position → Bool :=
  fun a => outputs.any fun b => (link mono f ps untaken b a).isSome

/-- No output takes less or more for what those before it take. -/
def Settles (mono : MonoRoute α) (f : Flags) (ps outputs : List Position) : Prop :=
  ∀ pre b post, outputs = pre ++ b :: post → ∀ a ∈ ps,
    link mono f ps (takenBy mono f ps pre) b a = link mono f ps untaken b a

theorem sourcesAt_untaken (ps : List Position) : (ps.map fun p => ⟨p, false⟩) = sourcesAt ps untaken := rfl

theorem scan_of_settles {mono : MonoRoute α} {f : Flags} {ps outputs : List Position} (h : Settles mono f ps outputs) :
    scan mono f (sourcesAt ps untaken) outputs =
      ⟨outputs.map fun b => rowOf f b (ps.map (link mono f ps untaken b)),
        outputs.any fun b => synthesizes f b (ps.map (link mono f ps untaken b)),
        sourcesAt ps (takenBy mono f ps outputs)⟩ := by
  -- the outputs so far are counted in, so that `h` can be used of the next one
  suffices hall : ∀ post pre, outputs = pre ++ post → scan mono f (sourcesAt ps (takenBy mono f ps pre)) post =
      ⟨post.map fun b => rowOf f b (ps.map (link mono f ps untaken b)),
        post.any fun b => synthesizes f b (ps.map (link mono f ps untaken b)),
        sourcesAt ps (takenBy mono f ps outputs)⟩ from hall outputs [] rfl
  intro post
  induction post with
  | nil =>
    intro pre hpre
    rw [hpre, List.append_nil]
    rfl
  | cons b post ih =>
    intro pre hpre
    have hlinks : links mono f (sourcesAt ps (takenBy mono f ps pre)) b = ps.map (link mono f ps untaken b) := by
      rw [links_sourcesAt]
      exact List.map_congr_left (h pre b post hpre)
    have htaken : (fun a => takenBy mono f ps pre a || (link mono f ps untaken b a).isSome) =
        takenBy mono f ps (pre ++ [b]) := by
      funext a
      simp [takenBy]
    have hrest := ih (pre ++ [b]) (by rw [hpre, List.append_assoc]; rfl)
    simp only [scan, hlinks, take_sourcesAt, htaken, hrest, List.map_cons, List.any_cons]

/-- The row of the output `b`, not scaled yet, if the positions `t` are taken in the end. -/
def mixed (mono : MonoRoute α) (f : Flags) (ps outputs : List Position) (t : Position → Bool) (b : Position) : List α :=
  mixIn outputs f (sourcesAt ps t) b (rowOf f b (ps.map (link mono f ps untaken b)))

theorem remix_of_settles {f : Flags} {ps outputs : List Position}
    (h : Settles (monoRoute outputs f : MonoRoute α) f ps outputs) :
    remix ps outputs f =
      let mono : MonoRoute α := monoRoute outputs f
      ⟨ps.length, outputs.map (mixed mono f ps outputs (takenBy mono f ps outputs)),
        outputs.any fun b => synthesizes f b (ps.map (link mono f ps untaken b))⟩ := by
  unfold remix
  rw [sourcesAt_untaken, scan_of_settles h]
  dsimp only
  rw [List.zipWith_map_right, List.zipWith_self]
  rfl

/-- An output that an input names does not look at what is taken. -/
theorem link_of_isNamed {mono : MonoRoute α} {f : Flags} {ps : List Position} {b : Position}
    (h : isNamed mono ps b = true) (t : Position → Bool) (a : Position) :
    link mono f ps t b a = named ps.length (mono.gainAt b) a b := if_pos h

end PcmConvert.Mix
