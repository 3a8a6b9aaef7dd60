import Mathlib.Algebra.BigOperators.Group.Finset.Basic
import Mathlib.Algebra.Order.BigOperators.Group.Finset
import Mathlib.Data.Finset.Option

/-!
# Shares of a finite set

Every member of a finite set has an owner or none. With a newcomer (`Grows`) an owner keeps members up to a target,
the whole divided by the number of owners with the newcomer and rounded down, and the newcomer takes the rest. The
shapes that newcomers, one after another, make of a set without owners are `Rotated`: when there are as many owners as
members the target is 0 and the next newcomer takes all, so the owners go round in laps.
-/

namespace Shares

universe u v

variable {α : Type u} {ι : Type v} [DecidableEq ι]

/-- What `c` owns. -/
def part (s : Finset α) (f : α → Option ι) (c : ι) : Finset α := s.filter fun b => f b = some c

/-- Who owns something. -/
def owners (s : Finset α) (f : α → Option ι) : Finset ι := (s.image f).eraseNone

/-- A fair share with one owner more. -/
def target (s : Finset α) (f : α → Option ι) : Nat := s.card / ((owners s f).card + 1)

structure Grows (s : Finset α) (newcomer : ι) (f g : α → Option ι) : Prop where
  covered : ∀ b ∈ s, (g b).isSome
  kept : ∀ b ∈ s, g b = f b ∨ g b = some newcomer
  trimmed : ∀ c ≠ newcomer, (part s g c).card = min (part s f c).card (target s f)

theorem mem_part {s : Finset α} {f : α → Option ι} {c : ι} {b : α} : b ∈ part s f c ↔ b ∈ s ∧ f b = some c :=
  Finset.mem_filter

theorem mem_owners {s : Finset α} {f : α → Option ι} {c : ι} : c ∈ owners s f ↔ ∃ b ∈ s, f b = some c := by
  simp [owners]

theorem card_part_pos {s : Finset α} {f : α → Option ι} {c : ι} : 0 < (part s f c).card ↔ c ∈ owners s f := by
  rw [Finset.card_pos, mem_owners]
  constructor
  · rintro ⟨b, hb⟩
    exact ⟨b, mem_part.1 hb⟩
  · rintro ⟨b, hb⟩
    exact ⟨b, mem_part.2 hb⟩

/-- **The parts of all owners** are the whole. -/
theorem sum_parts {s : Finset α} {f : α → Option ι} {cs : Finset ι} (h : ∀ b ∈ s, ∃ c ∈ cs, f b = some c) :
    ∑ c ∈ cs, (part s f c).card = s.card := by
  classical
  have hdisjoint : (cs : Set ι).PairwiseDisjoint (part s f) := by
    intro c _ d _ hne
    refine Finset.disjoint_left.2 fun b hc hd => hne ?_
    exact Option.some.inj ((mem_part.1 hc).2.symm.trans (mem_part.1 hd).2)
  rw [← Finset.card_biUnion hdisjoint]
  congr 1
  ext b
  rw [Finset.mem_biUnion]
  constructor
  · rintro ⟨c, -, hb⟩
    exact (mem_part.1 hb).1
  · intro hb
    obtain ⟨c, hc, hown⟩ := h b hb
    exact ⟨c, hc, mem_part.2 ⟨hb, hown⟩⟩

namespace Grows

variable {s : Finset α} {newcomer : ι} {f g : α → Option ι}

theorem part_subset (h : Grows s newcomer f g) {c : ι} (hc : c ≠ newcomer) : part s g c ⊆ part s f c := by
  intro b hb
  obtain ⟨hin, hown⟩ := mem_part.1 hb
  rcases h.kept b hin with hsame | hnew
  · exact mem_part.2 ⟨hin, hsame ▸ hown⟩
  · exact absurd (Option.some.inj (hown.symm.trans hnew)) hc

/-- **The newcomer takes the rest.** -/
theorem rest (h : Grows s newcomer f g) (hnew : newcomer ∉ owners s f) :
    (part s g newcomer).card + ∑ c ∈ owners s f, min (part s f c).card (target s f) = s.card := by
  have hall : ∀ b ∈ s, ∃ c ∈ insert newcomer (owners s f), g b = some c := by
    intro b hb
    obtain ⟨c, hc⟩ := Option.isSome_iff_exists.1 (h.covered b hb)
    refine ⟨c, ?_, hc⟩
    rcases h.kept b hb with hsame | hown
    · exact Finset.mem_insert_of_mem (mem_owners.2 ⟨b, hb, hsame ▸ hc⟩)
    · obtain rfl := Option.some.inj (hc.symm.trans hown)
      exact Finset.mem_insert_self c _
  rw [← sum_parts hall, Finset.sum_insert hnew]
  congr 1
  refine Finset.sum_congr rfl fun c hc => (h.trimmed c ?_).symm
  rintro rfl
  exact hnew hc

/-- The targets of all owners are not the whole. -/
theorem newcomer_pos (h : Grows s newcomer f g) (hnew : newcomer ∉ owners s f) (hs : s.Nonempty) :
    0 < (part s g newcomer).card := by
  have hrest := h.rest hnew
  have hbound : ∑ c ∈ owners s f, min (part s f c).card (target s f) ≤ (owners s f).card * target s f := by
    rw [← Nat.nsmul_eq_mul]
    exact Finset.sum_le_card_nsmul _ _ _ fun c _ => min_le_right _ _
  have hdiv : target s f * ((owners s f).card + 1) ≤ s.card := Nat.div_mul_le_self _ _
  have hcard := Finset.card_pos.2 hs
  rw [Nat.mul_succ, Nat.mul_comm] at hdiv
  rcases Nat.eq_zero_or_pos (target s f) with hzero | hpos
  · rw [hzero] at hrest
    rw [hzero, Nat.mul_zero] at hbound
    omega
  · omega

end Grows

/-! ## Newcomers one after another -/

/-- The owners that are left with nothing, those with a full share, and the newest. -/
structure Lap (s : Finset α) (f : α → Option ι) (idle full : List ι) (newest : ι) : Prop where
  laps : s.card ∣ idle.length
  within : full.length + 1 ≤ s.card
  covered : ∀ b ∈ s, ∃ c ∈ full ++ [newest], f b = some c
  idleShare : ∀ c ∈ idle, (part s f c).card = 0
  fullShare : ∀ c ∈ full, (part s f c).card = s.card / (full.length + 1)
  newestShare : (part s f newest).card = s.card / (full.length + 1) + s.card % (full.length + 1)

/-- The parts after the newcomers `cs`. -/
def Rotated (s : Finset α) (cs : List ι) (f : α → Option ι) : Prop :=
  (cs = [] ∧ ∀ b ∈ s, f b = none) ∨ ∃ idle full newest, cs = idle ++ (full ++ [newest]) ∧ Lap s f idle full newest

namespace Lap

variable {s : Finset α} {f g : α → Option ι} {idle full : List ι} {newest newcomer : ι}

theorem share_pos (h : Lap s f idle full newest) : 0 < s.card / (full.length + 1) :=
  Nat.div_pos h.within (Nat.succ_pos _)

/-- The owners are the current lap. -/
theorem mem_owners_iff (h : Lap s f idle full newest) {c : ι} : c ∈ owners s f ↔ c ∈ full ++ [newest] := by
  constructor
  · intro hc
    obtain ⟨b, hb, hown⟩ := mem_owners.1 hc
    obtain ⟨d, hd, hown'⟩ := h.covered b hb
    rwa [Option.some.inj (hown.symm.trans hown')]
  · intro hc
    refine card_part_pos.1 ?_
    have hpos := h.share_pos
    rcases List.mem_append.1 hc with hfull | hnewest
    · rwa [h.fullShare c hfull]
    · obtain rfl := List.mem_singleton.1 hnewest
      rw [h.newestShare]
      omega

theorem owners_eq (h : Lap s f idle full newest) : owners s f = (full ++ [newest]).toFinset := by
  ext c
  rw [h.mem_owners_iff, List.mem_toFinset]

theorem card_owners (h : Lap s f idle full newest) (hnd : (full ++ [newest]).Nodup) :
    (owners s f).card = full.length + 1 := by
  rw [h.owners_eq, List.toFinset_card_of_nodup hnd, List.length_append, List.length_singleton]

/-- An owner has at least the next target. -/
theorem trimmed (h : Lap s f idle full newest) (hnd : (full ++ [newest]).Nodup) {c : ι} (hc : c ∈ full ++ [newest]) :
    min (part s f c).card (target s f) = s.card / (full.length + 1 + 1) := by
  have hless : s.card / (full.length + 1 + 1) ≤ s.card / (full.length + 1) :=
    Nat.div_le_div_left (Nat.le_succ _) (Nat.succ_pos _)
  rw [target, h.card_owners hnd]
  rcases List.mem_append.1 hc with hfull | hnewest
  · rw [h.fullShare c hfull]
    omega
  · obtain rfl := List.mem_singleton.1 hnewest
    rw [h.newestShare]
    omega

theorem sum_trimmed (h : Lap s f idle full newest) (hnd : (full ++ [newest]).Nodup) :
    ∑ c ∈ owners s f, min (part s f c).card (target s f) = (full.length + 1) * (s.card / (full.length + 1 + 1)) := by
  rw [Finset.sum_congr rfl fun c hc => h.trimmed hnd (h.mem_owners_iff.1 hc), Finset.sum_const, h.card_owners hnd,
    Nat.nsmul_eq_mul]

/-- Everyone gets less, or the lap is over and the newcomer gets all. -/
theorem grow (h : Lap s f idle full newest) (hg : Grows s newcomer f g)
    (hnd : (idle ++ (full ++ [newest]) ++ [newcomer]).Nodup) : Rotated s (idle ++ (full ++ [newest]) ++ [newcomer]) g := by
  obtain ⟨hold, -, hout⟩ := List.nodup_append.1 hnd
  have hlap : (full ++ [newest]).Nodup := (List.nodup_append.1 hold).2.1
  have hother : ∀ c ∈ idle ++ (full ++ [newest]), c ≠ newcomer := fun c hc => hout c hc newcomer List.mem_cons_self
  have hrest := hg.rest fun hc => hother newcomer (List.mem_append_right _ (h.mem_owners_iff.1 hc)) rfl
  rw [h.sum_trimmed hlap] at hrest
  have hlapShare : ∀ c ∈ full ++ [newest], (part s g c).card = s.card / (full.length + 1 + 1) := fun c hc => by
    rw [hg.trimmed c (hother c (List.mem_append_right _ hc)), h.trimmed hlap hc]
  have hidle : ∀ c ∈ idle, (part s g c).card = 0 := fun c hc => by
    rw [hg.trimmed c (hother c (List.mem_append_left _ hc)), h.idleShare c hc, Nat.zero_min]
  have hdiv := Nat.div_add_mod s.card (full.length + 1 + 1)
  have hsplit : (full.length + 1 + 1) * (s.card / (full.length + 1 + 1)) =
      (full.length + 1) * (s.card / (full.length + 1 + 1)) + s.card / (full.length + 1 + 1) := Nat.succ_mul _ _
  refine Or.inr ?_
  rcases Nat.lt_or_ge (full.length + 1) s.card with hroom | hfull
  · refine ⟨idle, full ++ [newest], newcomer, by rw [List.append_assoc], h.laps, ?_, fun b hb => ?_, hidle, ?_, ?_⟩
    · rw [List.length_append, List.length_singleton]
      exact hroom
    · rcases hg.kept b hb with hsame | hnew
      · obtain ⟨c, hc, hown⟩ := h.covered b hb
        exact ⟨c, List.mem_append_left _ hc, hsame.trans hown⟩
      · exact ⟨newcomer, by simp, hnew⟩
    · simpa using hlapShare
    · rw [List.length_append, List.length_singleton]
      omega
  · -- as many owners as members: the target is 0
    have hcard : s.card = full.length + 1 := Nat.le_antisymm hfull h.within
    have hzero : s.card / (full.length + 1 + 1) = 0 := Nat.div_eq_of_lt (by omega)
    rw [hzero] at hlapShare hrest
    refine ⟨idle ++ (full ++ [newest]), [], newcomer, rfl, ?_, ?_, fun b hb => ?_, fun c hc => ?_, ?_, ?_⟩
    · rw [List.length_append, List.length_append, List.length_singleton, ← hcard]
      exact Nat.dvd_add h.laps (Nat.dvd_refl _)
    · rw [List.length_nil]
      omega
    · obtain ⟨c, hown⟩ := Option.isSome_iff_exists.1 (hg.covered b hb)
      by_cases hc : c = newcomer
      · exact ⟨newcomer, by simp, hc ▸ hown⟩
      · have hb' := hg.part_subset hc (mem_part.2 ⟨hb, hown⟩)
        have hpos : 0 < (part s g c).card := card_part_pos.2 (mem_owners.2 ⟨b, hb, hown⟩)
        rw [hlapShare c (h.mem_owners_iff.1 (mem_owners.2 ⟨b, mem_part.1 hb'⟩))] at hpos
        exact absurd hpos (Nat.lt_irrefl 0)
    · rcases List.mem_append.1 hc with hc | hc
      · exact hidle c hc
      · exact hlapShare c hc
    · exact fun c hc => by cases hc
    · rw [List.length_nil, Nat.zero_add, Nat.div_one, Nat.mod_one]
      omega

/-- **Two parts differ by at most one** in the first lap when the remainder does, and later at the end of a lap. -/
theorem even_iff (h : Lap s f idle full newest) :
    (∀ c ∈ idle ++ (full ++ [newest]), ∀ d ∈ idle ++ (full ++ [newest]), (part s f c).card ≤ (part s f d).card + 1) ↔
      ((idle ++ (full ++ [newest])).length ≤ s.card ∧ s.card % (idle ++ (full ++ [newest])).length ≤ 1) ∨
        (s.card < (idle ++ (full ++ [newest])).length ∧ s.card ∣ (idle ++ (full ++ [newest])).length) := by
  have hwithin := h.within
  have hpos := h.share_pos
  have hdiv := Nat.div_add_mod s.card (full.length + 1)
  have hlen : (idle ++ (full ++ [newest])).length = idle.length + (full.length + 1) := by simp
  have hnewest : newest ∈ idle ++ (full ++ [newest]) := by simp
  rw [hlen]
  cases idle with
  | nil =>
    rw [List.length_nil, Nat.zero_add, List.nil_append]
    constructor
    · intro heven
      refine Or.inl ⟨hwithin, ?_⟩
      cases full with
      | nil => simp [Nat.mod_one]
      | cons c full =>
        have hle := heven newest (by simp) c (by simp)
        rw [h.newestShare, h.fullShare c List.mem_cons_self] at hle
        omega
    · rintro (⟨-, hmod⟩ | ⟨hlt, -⟩) c hc d hd
      · have hupper : ∀ c ∈ full ++ [newest], (part s f c).card ≤ s.card / (full.length + 1) + 1 := by
          intro c hc
          rcases List.mem_append.1 hc with hc | hc
          · rw [h.fullShare c hc]
            omega
          · obtain rfl := List.mem_singleton.1 hc
            rw [h.newestShare]
            omega
        have hlower : ∀ d ∈ full ++ [newest], s.card / (full.length + 1) ≤ (part s f d).card := by
          intro d hd
          rcases List.mem_append.1 hd with hd | hd
          · rw [h.fullShare d hd]
          · obtain rfl := List.mem_singleton.1 hd
            rw [h.newestShare]
            omega
        exact (hupper c hc).trans (Nat.succ_le_succ (hlower d hd))
      · omega
  | cons first idle =>
    have hlaps : s.card ≤ (first :: idle).length := Nat.le_of_dvd (Nat.succ_pos _) h.laps
    have hzero : (part s f first).card = 0 := h.idleShare first List.mem_cons_self
    constructor
    · intro heven
      have hle := heven newest hnewest first (by simp)
      rw [h.newestShare, hzero] at hle
      have hone : s.card / (full.length + 1) = 1 := by omega
      rw [hone, Nat.mul_one] at hdiv
      refine Or.inr ⟨by omega, Nat.dvd_add h.laps ?_⟩
      rw [show full.length + 1 = s.card by omega]
    · rintro (⟨hle, -⟩ | ⟨-, hdvd⟩) c hc d -
      · omega
      · have hlast : s.card ∣ full.length + 1 := (Nat.dvd_add_right h.laps).1 hdvd
        have hcard : full.length + 1 = s.card := Nat.le_antisymm hwithin (Nat.le_of_dvd (Nat.succ_pos _) hlast)
        rw [hcard, Nat.div_self (by omega)] at hdiv
        have hone : (part s f c).card ≤ 1 := by
          rcases List.mem_append.1 hc with hc | hc
          · rw [h.idleShare c hc]
            omega
          · rcases List.mem_append.1 hc with hc | hc
            · rw [h.fullShare c hc, hcard, Nat.div_self (by omega)]
            · obtain rfl := List.mem_singleton.1 hc
              rw [h.newestShare, hcard, Nat.div_self (by omega), Nat.mod_self]
        omega

end Lap

namespace Rotated

variable {s : Finset α} {f g : α → Option ι} {cs : List ι} {newcomer : ι}

/-- **One more newcomer.** -/
theorem grow (h : Rotated s cs f) (hg : Grows s newcomer f g) (hs : s.Nonempty) (hnd : (cs ++ [newcomer]).Nodup) :
    Rotated s (cs ++ [newcomer]) g := by
  rcases h with ⟨rfl, hnone⟩ | ⟨idle, full, newest, rfl, hlap⟩
  · have hall : ∀ b ∈ s, g b = some newcomer := fun b hb => by
      rcases hg.kept b hb with hsame | hnew
      · have hcovered := hg.covered b hb
        rw [hsame, hnone b hb] at hcovered
        cases hcovered
      · exact hnew
    refine Or.inr ⟨[], [], newcomer, rfl, ⟨0, rfl⟩, Finset.card_pos.2 hs, fun b hb => ⟨newcomer, by simp, hall b hb⟩, ?_, ?_, ?_⟩
    · exact fun c hc => by cases hc
    · exact fun c hc => by cases hc
    · have hpart : part s g newcomer = s := Finset.filter_true_of_mem hall
      rw [hpart, List.length_nil, Nat.zero_add, Nat.div_one, Nat.mod_one, Nat.add_zero]
  · exact hlap.grow hg hnd

/-- Up to as many newcomers as members, the parts are equal but for the newest, which has the remainder too. -/
theorem first_lap (h : Rotated s cs f) (hne : cs ≠ []) (hle : cs.length ≤ s.card) :
    ∃ full newest, cs = full ++ [newest] ∧ (∀ c ∈ full, (part s f c).card = s.card / cs.length) ∧
      (part s f newest).card = s.card / cs.length + s.card % cs.length := by
  rcases h with ⟨rfl, -⟩ | ⟨idle, full, newest, rfl, hlap⟩
  · exact absurd rfl hne
  · have hidle : idle = [] := by
      rw [← List.length_eq_zero_iff]
      rw [List.length_append, List.length_append, List.length_singleton] at hle
      exact Nat.eq_zero_of_dvd_of_lt hlap.laps (by omega)
    subst hidle
    refine ⟨full, newest, rfl, ?_, ?_⟩
    · simpa using hlap.fullShare
    · simpa using hlap.newestShare

theorem even_iff (h : Rotated s cs f) (hne : cs ≠ []) :
    (∀ c ∈ cs, ∀ d ∈ cs, (part s f c).card ≤ (part s f d).card + 1) ↔
      (cs.length ≤ s.card ∧ s.card % cs.length ≤ 1) ∨ (s.card < cs.length ∧ s.card ∣ cs.length) := by
  rcases h with ⟨rfl, -⟩ | ⟨idle, full, newest, rfl, hlap⟩
  · exact absurd rfl hne
  · exact hlap.even_iff

end Rotated

end Shares
