/-
  PcmConvert.Proofs.Mix.Identity — when the matrix from a map to itself changes nothing
  (`isIdentity_build_iff`). It has a row for each position and in it a gain for each
  position, so a position that is there twice shows in two places of a row
  (`nodup_of_isIdentity`). With positions that are all different each output takes its own
  input; and all of it goes no further, unless one of them is mono: mono takes a part of
  each of the others, and where its row is scaled down for that not even its own gain stays
  one.
-/

import PcmConvert.Proofs.Mix.Links
import PcmConvert.Proofs.Mix.Shape
import PcmConvert.Proofs.Number.Magnitude

namespace PcmConvert

/-- Sums of zeros and a one are exact. -/
structure Gain.Units (α : Type) [Gain α] : Prop where
  zero_beq : ((0 : α) == 0) = true
  one_beq_zero : ((1 : α) == 0) = false
  one_beq : ((1 : α) == 1) = true
  zero_add_zero : (0 : α) + 0 = 0
  zero_add_one : (0 : α) + 1 = 1
  one_add_zero : (1 : α) + 0 = 1
  not_one_lt : ¬(1 : α) < 1

theorem Gain.units_float32 : Gain.Units Float32 := by
  constructor <;> decide +kernel

namespace Mix

variable {α : Type} [Gain α]

/-- What scaling makes of one gain of a row. -/
def scaled (row : List α) (g : α) : α := if 1 < Gain.total row then g / Gain.total row else g

theorem normalize_eq_scaled (row : List α) : normalize row = row.map (scaled row) := by
  unfold normalize scaled
  dsimp only
  split
  · rfl
  · exact (List.map_id row).symm

end Mix

namespace Matrix

open Mix

variable {α : Type} [Gain α]

/-! ## Rows that copy -/

theorem total_zeros {x : α} (h : x + 0 = x) {zs : List α} (hz : ∀ z ∈ zs, z = 0) : zs.foldl (· + ·) x = x := by
  induction zs with
  | nil => rfl
  | cons z zs ih =>
    obtain ⟨rfl, hrest⟩ := List.forall_mem_cons.mp hz
    rw [List.foldl_cons, h, ih hrest]

theorem filter_zeros (hu : Gain.Units α) {zs : List α} (hz : ∀ z ∈ zs, z = 0) (k : Nat) :
    (zs.zipIdx k).filter (fun g => !(g.1 == 0)) = [] := by
  rw [List.filter_eq_nil_iff]
  rintro ⟨g, j⟩ hg
  simp [hz g (List.fst_mem_of_mem_zipIdx hg), hu.zero_beq]

/-- A row of zeros with a single one is not scaled, and copies the input of the one. -/
theorem copied?_of_single (hu : Gain.Units α) {as bs : List α} (ha : ∀ z ∈ as, z = 0) (hb : ∀ z ∈ bs, z = 0) :
    copied? (normalize (as ++ 1 :: bs)) = some (some as.length) := by
  have htotal : Gain.total (as ++ 1 :: bs) = 1 := by
    rw [Gain.total, List.foldl_append, total_zeros hu.zero_add_zero ha, List.foldl_cons, hu.zero_add_one,
      total_zeros hu.one_add_zero hb]
  have hfilter : (as ++ 1 :: bs).zipIdx.filter (fun g => !(g.1 == 0)) = [(1, as.length)] := by
    rw [List.zipIdx_append, List.filter_append, filter_zeros hu ha, List.zipIdx_cons, List.filter_cons,
      filter_zeros hu hb]
    simp [hu.one_beq_zero]
  unfold Mix.normalize
  dsimp only
  rw [htotal, if_neg hu.not_one_lt]
  unfold copied?
  rw [hfilter]
  simp [hu.one_beq]

/-- A row that copies the input `i` has a one there, and no other gain. -/
theorem of_copied? {row : List α} {i : Nat} (h : copied? row = some (some i)) :
    (∃ g, row[i]? = some g ∧ (g == 1) = true ∧ (g == 0) = false) ∧
      ∀ j g, row[j]? = some g → (g == 0) = false → j = i := by
  unfold copied? at h
  split at h
  · cases h
  · next g j hf =>
    split at h
    · next hone =>
      cases h
      have hmem (k : Nat) (x : α) : row[k]? = some x ∧ (x == 0) = false ↔ (x, k) = (g, i) := by
        rw [← List.mem_singleton (a := (x, k)), ← hf, List.mem_filter, List.mem_zipIdx_iff_getElem?]
        simp
      obtain ⟨hg, hz⟩ := (hmem i g).mpr rfl
      exact ⟨⟨g, hg, hone, hz⟩, fun k x hx hxz => congrArg Prod.snd ((hmem k x).mp ⟨hx, hxz⟩)⟩
    · cases h
  · cases h

/-! ## Identity -/

theorem isIdentity_iff {m : Matrix α} : m.isIdentity = true ↔
    m.inputs = m.rows.length ∧ ∀ i row, m.rows[i]? = some row → copied? row = some (some i) := by
  unfold isIdentity permutation? outputs
  rw [Bool.and_eq_true, beq_iff_eq, beq_iff_eq, mapM_eq_some_iff]
  refine and_congr_right fun hi => ?_
  have hshown : m.shown = m.rows := by
    unfold shown
    split
    · next hz => rw [List.eq_nil_of_length_eq_zero (hi.symm.trans hz)]
    · rfl
  rw [hshown, List.ext_getElem?_iff]
  refine forall_congr' fun i => ?_
  rw [List.getElem?_map, List.getElem?_map, List.getElem?_map]
  cases hrow : m.rows[i]? with
  | none => simp [List.getElem?_eq_none_iff.mp hrow]
  | some row =>
    obtain ⟨hlt, _⟩ := List.getElem?_eq_some_iff.mp hrow
    simp [hlt]

/-! ## Rows that go by positions -/

variable {β : Type} {l : List β} {g : β → β → α} {m : Matrix α}

/-- A one at its own place in each row, and nothing else. -/
theorem isIdentity_of_single [DecidableEq β] (hu : Gain.Units α) (hi : m.inputs = l.length)
    (hrows : m.rows = l.map fun b => normalize (l.map (g b))) (hl : l.Nodup)
    (hg : ∀ b ∈ l, ∀ a ∈ l, g b a = if a = b then 1 else 0) : m.isIdentity = true := by
  rw [isIdentity_iff, hrows]
  refine ⟨by rw [List.length_map, hi], fun i row hrow => ?_⟩
  rw [List.getElem?_map] at hrow
  obtain ⟨b, hb, rfl⟩ := Option.map_eq_some_iff.mp hrow
  obtain ⟨as, bs, hsplit, rfl⟩ := exists_split hb
  have hown : l.map (g b) = l.map fun a => if a = b then 1 else 0 :=
    List.map_congr_left (hg b (List.mem_of_getElem? hb))
  rw [hsplit, List.nodup_middle, List.nodup_cons, List.mem_append, not_or] at hl
  obtain ⟨⟨ha, hb'⟩, _⟩ := hl
  have hzero {xs : List β} (h : b ∉ xs) : ∀ z ∈ xs.map (fun a => if a = b then (1 : α) else 0), z = 0 := by
    intro z hz
    obtain ⟨a, hmem, rfl⟩ := List.mem_map.mp hz
    rw [if_neg]
    rintro rfl
    exact h hmem
  have hsingle := copied?_of_single hu (hzero ha) (hzero hb')
  rw [List.length_map] at hsingle
  rw [hown, hsplit, List.map_append, List.map_cons, if_pos rfl]
  exact hsingle

/-- An output cannot tell two inputs at one position apart. -/
theorem nodup_of_isIdentity (hrows : m.rows = l.map fun b => normalize (l.map (g b))) (h : m.isIdentity = true) :
    l.Nodup := by
  obtain ⟨_, hcopied⟩ := isIdentity_iff.mp h
  rw [List.nodup_iff_injective_get]
  intro i j hij
  have hi : l[i.val]? = some (l.get i) := List.getElem?_eq_getElem i.isLt
  have hj : l[j.val]? = some (l.get i) := (List.getElem?_eq_getElem j.isLt).trans (congrArg some hij.symm)
  have hrow := hcopied i (Mix.normalize (l.map (g (l.get i)))) (by rw [hrows, List.getElem?_map, hi]; rfl)
  rw [normalize_eq_scaled] at hrow
  obtain ⟨⟨x, hx, _, hz⟩, hother⟩ := of_copied? hrow
  refine Fin.ext (hother j x ?_ hz).symm
  rw [← hx]
  simp only [List.getElem?_map, hi, hj]

/-! ## A map to itself -/

theorem isNamed_self (mono : MonoRoute α) {ps : List Position} {b : Position} (hb : b ∈ ps) :
    isNamed mono ps b = true :=
  List.any_eq_true.mpr ⟨b, hb, by simp [named]⟩

/-- From a map to itself each output takes what names it, and every input is taken. -/
theorem remix_self (ps : List Position) (f : Flags) :
    (remix ps ps f : Matrix α).rows =
      ps.map fun b => ps.map fun a => (named ps.length ((monoRoute ps f : MonoRoute α).gainAt b) a b).getD 0 := by
  have hlink {b : Position} (hb : b ∈ ps) (t : Position → Bool) (a : Position) :
      link (monoRoute ps f : MonoRoute α) f ps t b a =
        named ps.length ((monoRoute ps f : MonoRoute α).gainAt b) a b := link_of_isNamed (isNamed_self _ hb) t a
  have hsettles : Settles (monoRoute ps f : MonoRoute α) f ps ps := by
    intro pre b post hps a _
    have hb : b ∈ ps := by
      rw [hps]
      simp
    rw [hlink hb, hlink hb]
  have htaken : ∀ a ∈ ps, takenBy (monoRoute ps f : MonoRoute α) f ps ps a = true := by
    intro a ha
    refine List.any_eq_true.mpr ⟨a, ha, ?_⟩
    rw [hlink ha, named, if_pos rfl]
    rfl
  rw [remix_of_settles hsettles]
  refine List.map_congr_left fun b hb => ?_
  have hsynth : synthesizes f b (ps.map (link (monoRoute ps f : MonoRoute α) f ps untaken b)) = false := by
    refine synthesizes_map_of_isSome f b hb ?_
    rw [hlink hb, named, if_pos rfl]
    rfl
  rw [mixed, rowOf_map, mixIn_map]
  refine List.map_congr_left fun a ha => ?_
  have hnone : residual ps f (sourcesAt ps (takenBy (monoRoute ps f : MonoRoute α) f ps ps)) b
      ⟨a, takenBy (monoRoute ps f : MonoRoute α) f ps ps a⟩ = (none : Option α) := by
    rw [htaken a ha]
    rfl
  rw [hnone, hsynth, hlink hb]
  rfl

end Matrix

/-- The flags leave the channels of a map to itself as they are. -/
def Flags.Keeps (f : Flags) (m : ChannelMap) : Prop :=
  f.noRemap = true ∨ f.noRemix = true ∧ m.Nodup ∨ f.noRemix = false ∧ m.Nodup ∧ (m.length ≤ 1 ∨ Position.mono ∉ m)

namespace Matrix

open Mix

theorem share_ne_zero {n : Nat} (h : 0 < n) (hn : n < 2 ^ 23) : ((Gain.share n : Float32) == 0) = false := by
  have hshare := Number.within_div Number.within_one (Number.within_ofNat h hn) (by decide) (by decide) (by decide) (by decide)
  exact Number.beq_zero_of_within hshare

/-- Positions that are all different are not many. -/
theorem length_le_of_nodup {m : ChannelMap} (hm : m.Nodup) (haux : ∀ n, Position.aux n ∈ m → n < 256) :
    m.length ≤ 275 := by
  have hsub : m ⊆ Position.named ++ (List.range 256).map Position.aux := by
    intro p hp
    cases p with
    | aux n => simp [haux n hp, Position.named]
    | _ => simp [Position.named]
  simpa [Position.named] using (hm.subperm hsub).length_le

/-- Mono among others takes a part of each. -/
theorem isIdentity_of_mono {m : ChannelMap} {x : Matrix Float32} {g : Position → Position → Float32}
    (hrows : x.rows = m.map fun b => normalize (m.map (g b))) (hm : m.Nodup) (hmono : Position.mono ∈ m)
    (hlen : 2 ≤ m.length) (hmax : m.length < 2 ^ 23)
    (hg : ∀ a ∈ m, g .mono a = if a = .mono then 1 else Gain.share m.length) : x.isIdentity = false := by
  rw [← Bool.not_eq_true]
  intro h
  obtain ⟨_, hcopied⟩ := isIdentity_iff.mp h
  obtain ⟨i, hi, hget⟩ := List.getElem_of_mem hmono
  have hmi : m[i]? = some .mono := by rw [List.getElem?_eq_getElem hi, hget]
  obtain ⟨j, hji, hj⟩ : ∃ j, j ≠ i ∧ j < m.length := by
    by_cases hz : i = 0
    · exact ⟨1, by omega, by omega⟩
    · exact ⟨0, by omega, by omega⟩
  have hother : m[j] ≠ .mono := by
    intro hmj
    exact hji ((hm.getElem_inj_iff).mp (hmj.trans hget.symm))
  have hown : (m.map (g .mono))[i]? = some 1 := by
    rw [List.getElem?_map, hmi, Option.map_some, hg _ hmono, if_pos rfl]
  have hpart : (m.map (g .mono))[j]? = some (Gain.share m.length) := by
    rw [List.getElem?_map, List.getElem?_eq_getElem hj, Option.map_some, hg _ (List.getElem_mem hj), if_neg hother]
  have hrow := hcopied i (normalize (m.map (g .mono))) (by rw [hrows, List.getElem?_map, hmi]; rfl)
  generalize m.map (g .mono) = row at hown hpart hrow
  obtain ⟨⟨y, hy, hone, _⟩, honly⟩ := of_copied? hrow
  by_cases hscaled : 1 < Gain.total row
  · -- the one is scaled down, and no longer is one
    rw [Mix.normalize, if_pos hscaled, List.getElem?_map, hown] at hy
    cases hy
    rw [show (1 / Gain.total row == 1) = false from Number.reciprocal_ne_one hscaled] at hone
    cases hone
  · rw [Mix.normalize, if_neg hscaled] at honly
    exact hji (honly j _ hpart (share_ne_zero (by omega) hmax))

theorem eq_of_mem_of_length_le_one {β : Type} {l : List β} (h : l.length ≤ 1) {a b : β} (ha : a ∈ l) (hb : b ∈ l) :
    a = b := by
  cases l with
  | nil => cases ha
  | cons c r =>
    obtain rfl : r = [] := List.eq_nil_of_length_eq_zero (by simpa using h)
    rw [List.mem_singleton.mp ha, List.mem_singleton.mp hb]

/-- Channels that are numbered are kept, whatever their positions. -/
theorem isIdentity_of_noRemap (m : ChannelMap) {f : Flags} (hf : f.noRemap = true) :
    (build m m f : Matrix Float32).isIdentity = true := by
  have hi : (build m m f : Matrix Float32).inputs = (List.range m.length).length := by
    rw [inputs_build, List.length_range]
  have hrows : (build m m f : Matrix Float32).rows = (List.range m.length).map fun o =>
      normalize ((List.range m.length).map fun i => if i = o then 1 else 0) := by
    simp only [build, rules, if_pos hf, List.map_map]
    rfl
  exact isIdentity_of_single Gain.units_float32 hi hrows List.nodup_range fun _ _ _ _ => rfl

theorem isIdentity_noRemix_iff (m : ChannelMap) {f : Flags} (hf : ¬f.noRemap = true) (hremix : f.noRemix = true) :
    (build m m f : Matrix Float32).isIdentity = true ↔ m.Nodup := by
  have hrows : (build m m f : Matrix Float32).rows = m.map fun b =>
      normalize (m.map fun a => if a = b then 1 else 0) := by
    simp only [build, rules, if_neg hf, if_pos hremix, List.map_map]
    rfl
  constructor
  · exact nodup_of_isIdentity hrows
  · intro hm
    exact isIdentity_of_single Gain.units_float32 (inputs_build m m f) hrows hm fun _ _ _ _ => rfl

theorem isIdentity_remix_iff {m : ChannelMap} (haux : ∀ n, Position.aux n ∈ m → n < 256) {f : Flags}
    (hf : ¬f.noRemap = true) (hremix : ¬f.noRemix = true) :
    (build m m f : Matrix Float32).isIdentity = true ↔ m.Nodup ∧ (m.length ≤ 1 ∨ Position.mono ∉ m) := by
  have hrows : (build m m f : Matrix Float32).rows = m.map fun b => normalize (m.map fun a =>
      (named m.length ((monoRoute m f : MonoRoute Float32).gainAt b) a b).getD 0) := by
    simp only [build, rules, if_neg hf, if_neg hremix, remix_self, List.map_map]
    rfl
  constructor
  · intro h
    have hm := nodup_of_isIdentity hrows h
    refine ⟨hm, ?_⟩
    by_cases hmono : Position.mono ∈ m
    · refine .inl (Nat.le_of_not_lt fun hlen => ?_)
      have hle := length_le_of_nodup hm haux
      rw [isIdentity_of_mono hrows hm hmono hlen (by omega) fun a _ => ?_] at h
      · cases h
      · by_cases ha : a = .mono
        · simp [named, ha]
        · simp [named, ha]
    · exact .inr hmono
  · rintro ⟨hm, hplain⟩
    refine isIdentity_of_single Gain.units_float32 (inputs_build m m f) hrows hm fun b hb a ha => ?_
    by_cases hab : a = b
    · simp [named, hab]
    · rcases hplain with hlen | hmono
      · exact absurd (eq_of_mem_of_length_le_one hlen ha hb) hab
      · have hna : a ≠ .mono := by
          rintro rfl
          exact hmono ha
        have hnb : b ≠ .mono := by
          rintro rfl
          exact hmono hb
        simp [named, hab, hna, hnb]

/-- From a map to itself the matrix changes nothing exactly if the flags keep its channels. -/
theorem isIdentity_build_iff {m : ChannelMap} (haux : ∀ n, Position.aux n ∈ m → n < 256) (f : Flags) :
    (build m m f : Matrix Float32).isIdentity = true ↔ f.Keeps m := by
  unfold Flags.Keeps
  by_cases hf : f.noRemap = true
  · simp only [hf, true_or, iff_true]
    exact isIdentity_of_noRemap m hf
  · by_cases hremix : f.noRemix = true
    · rw [isIdentity_noRemix_iff m hf hremix]
      simp [hf, hremix]
    · rw [isIdentity_remix_iff haux hf hremix]
      simp [hf, hremix]

end Matrix

end PcmConvert
