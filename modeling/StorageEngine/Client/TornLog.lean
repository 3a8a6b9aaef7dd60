import StorageEngine.Client.TransferBytes

/-!
# A torn progress log

The log has one index a line and nothing else, and the reader takes numbers, not lines
(`LocalStateManager.cpp:61-64`, `:92-104`). A beginning of it is whole lines and the first bytes of one more; the digits
that are left of that index, and with them the digits of the first index appended later, are read as a number of their
own (`tornNumber`). No other number is read that was not appended.
-/

namespace StorageEngine

open Extent Reading

/-- Digits that an index comes right behind. -/
def joined (v : Nat) : List Int → Nat
  | j :: _ => if 0 ≤ j then v * 10 ^ (decimal j.toNat).length + j.toNat else v
  | [] => v

/-- What the line that is cut after `cut` bytes of the log is read as, if it is that of a chunk. -/
def tornNumber : List Int → Nat → List Int → Option Nat
  | [], _, _ => none
  | i :: old, cut, later =>
    if (decimal i.natAbs).length + (if i < 0 then 1 else 0) < cut then
      tornNumber old (cut - ((decimal i.natAbs).length + (if i < 0 then 1 else 0) + 1)) later
    else if 0 < cut ∧ 0 ≤ i then some (joined (i.toNat / 10 ^ ((decimal i.toNat).length - cut)) later)
    else none

theorem length_writeNumber (i : Int) :
    (Json.writeNumber i).length = (decimal i.natAbs).length + (if i < 0 then 1 else 0) := by
  unfold Json.writeNumber
  split <;> simp

/-! ## A number that lines come right behind -/

/-- A minus ends a number and begins the next. -/
theorem scanInts_minus {negative : Bool} {v : Nat} {i : Int} (hi : (IntScan.digits negative v).value = some i) (s : Bytes) :
    scanInts (.digits negative v) (Json.minus :: s) = i :: scanInts .between (Json.minus :: s) := by
  have hstart : IntScan.start Json.minus = some (.signed true) := rfl
  have hdigit : isDigit Json.minus = false := rfl
  simp only [scanInts, hi, hstart, hdigit, Bool.false_eq_true, if_false]

theorem scanInts_unread {st : IntScan} {b : UInt8} (hb : isDigit b = false) (hst : st ≠ .between) (hvalue : st.value = none)
    (s : Bytes) : scanInts st (b :: s) = [] := by
  cases st with
  | between => exact absurd rfl hst
  | signed negative => simp [scanInts, hb]
  | digits negative v => simp [scanInts, hb, hvalue]

/-- The number that is read first, its sign apart. -/
def firstNumber (negative : Bool) (v : Nat) : Int := if negative then -(v : Int) else v

theorem value_digits (negative : Bool) (v : Nat) : (IntScan.digits negative v).value =
    if IntRange (firstNumber negative v) then some (firstNumber negative v) else none := rfl

/-- **Digits with lines right behind them**: one number, and some of the lines, or nothing at all. -/
theorem scanInts_joined (negative : Bool) (v : Nat) {later : List Int} (hlater : ∀ j ∈ later, IntRange j) :
    scanInts (.digits negative v) (logText later) = [] ∧ ¬ IntRange (firstNumber negative (joined v later)) ∨
      IntRange (firstNumber negative (joined v later)) ∧ ∃ rest, rest <:+ later ∧
        scanInts (.digits negative v) (logText later) = firstNumber negative (joined v later) :: rest := by
  cases later with
  | nil =>
    have hread : scanInts (.digits negative v) (logText []) = (IntScan.digits negative v).value.toList := rfl
    rw [hread, value_digits]
    by_cases hrange : IntRange (firstNumber negative v)
    · exact Or.inr ⟨hrange, [], List.suffix_refl _, by rw [if_pos hrange]; rfl⟩
    · exact Or.inl ⟨by rw [if_neg hrange]; rfl, hrange⟩
  | cons j rest =>
    obtain ⟨hj, hrest⟩ := List.forall_mem_cons.1 hlater
    have htext : logText (j :: rest) = Json.writeNumber j ++ Json.newline :: logText rest := by
      rw [logText, List.flatMap_cons, List.append_assoc]
      rfl
    by_cases hneg : j < 0
    · have hminus : Json.writeNumber j ++ Json.newline :: logText rest =
          Json.minus :: (decimal j.natAbs ++ Json.newline :: logText rest) := by
        rw [Json.writeNumber, if_pos hneg, List.cons_append]
      have hwhole : scanInts .between (logText (j :: rest)) = j :: rest := readLog_logText hlater
      have hjoined : joined v (j :: rest) = v := if_neg (by omega)
      rw [htext, hminus] at hwhole ⊢
      rw [hjoined]
      by_cases hrange : IntRange (firstNumber negative v)
      · refine Or.inr ⟨hrange, j :: rest, List.suffix_refl _, ?_⟩
        rw [scanInts_minus (by rw [value_digits, if_pos hrange]), hwhole]
      · refine Or.inl ⟨scanInts_unread rfl (by simp) (by rw [value_digits, if_neg hrange]) _, hrange⟩
    · have hdigits : Json.writeNumber j = decimal j.natAbs := if_neg hneg
      have hvalue : (decimal j.natAbs).foldl (fun v d => 10 * v + (d.toNat - 0x30)) v = joined v (j :: rest) := by
        rw [foldl_digits, digitsValue_decimal, joined, if_pos (by omega), show j.toNat = j.natAbs by omega]
      rw [htext, hdigits, scanInts_digits negative fun b hb => isDigit_of_mem_decimal hb, hvalue]
      by_cases hrange : IntRange (firstNumber negative (joined v (j :: rest)))
      · refine Or.inr ⟨hrange, rest, List.suffix_cons j rest, ?_⟩
        have hlines : scanInts .between (logText rest) = rest := readLog_logText hrest
        rw [scanInts_newline (i := firstNumber negative (joined v (j :: rest))) rfl hrange, hlines]
      · refine Or.inl ⟨scanInts_unread rfl (by simp) (by rw [value_digits, if_neg hrange]) _, hrange⟩

/-! ## The line that is cut -/

/-- Of an index of a chunk some digits are left. -/
theorem scanInts_cutDigits {i : Int} (hi : 0 ≤ i) {cut : Nat} (hcut : 0 < cut) (s : Bytes) :
    scanInts .between ((Json.writeNumber i).take cut ++ s) =
      scanInts (.digits false (i.toNat / 10 ^ ((decimal i.toNat).length - cut))) s := by
  have hnat : i.natAbs = i.toNat := by omega
  have hdigits : Json.writeNumber i = decimal i.toNat := by rw [Json.writeNumber, if_neg (by omega), hnat]
  obtain ⟨d, ds, hd, hdigit, -⟩ := decimal_cons i.toNat
  obtain ⟨k, rfl⟩ : ∃ k, cut = k + 1 := ⟨cut - 1, by omega⟩
  have hall : ∀ b ∈ ds.take k, isDigit b = true := fun b hb =>
    isDigit_of_mem_decimal (hd ▸ List.mem_cons_of_mem d (List.mem_of_mem_take hb))
  have hvalue := digitsValue_take_decimal i.toNat (k + 1)
  rw [hdigits, ← hvalue, hd, List.take_succ_cons, List.cons_append, scanInts, start_digit hdigit]
  simp only
  rw [scanInts_digits false hall, digitsValue, List.foldl_cons, Nat.mul_zero, Nat.zero_add]

/-- A number that is not positive is a line, or zero. -/
theorem mem_joined {v : Nat} {later : List Int} (hlater : ∀ j ∈ later, IntRange j) (hv : v = 0 → ∃ j ∈ later.head?, 0 ≤ j)
    {x : Int} (hx : 0 ≤ x) (hin : x ∈ scanInts (.digits true v) (logText later)) : x ∈ later := by
  rcases scanInts_joined true v hlater with ⟨hnone, -⟩ | ⟨-, rest, hrest, hread⟩
  · rw [hnone] at hin
    cases hin
  · rw [hread] at hin
    rcases List.mem_cons.1 hin with rfl | hin
    · -- only zero is not negative here, and then the first line is zero
      have hzero : joined v later = 0 := by
        simp only [firstNumber, if_true] at hx
        omega
      cases later with
      | nil =>
        obtain ⟨j, hj, -⟩ := hv hzero
        cases hj
      | cons j later =>
        by_cases hj : 0 ≤ j
        · have hsum : v * 10 ^ (decimal j.toNat).length + j.toNat = 0 := by
            rwa [joined, if_pos hj] at hzero
          obtain rfl : j = 0 := by omega
          simp [firstNumber, hzero]
        · have hv0 : v = 0 := by rwa [joined, if_neg hj] at hzero
          obtain ⟨j', hj', hpos⟩ := hv hv0
          rw [List.head?_cons, Option.mem_some_iff] at hj'
          exact absurd (hj' ▸ hpos) hj
    · exact hrest.subset hin

/-- Of another index the minus is left, or some digits too: what is read then is not positive. -/
theorem mem_cutMinus {i : Int} (hi : i < 0) {cut : Nat} (hcut : 0 < cut) {later : List Int} (hlater : ∀ j ∈ later, IntRange j)
    {x : Int} (hx : 0 ≤ x) (hin : x ∈ scanInts .between ((Json.writeNumber i).take cut ++ logText later)) : x ∈ later := by
  obtain ⟨d, ds, hd, hdigit, hfront⟩ := decimal_cons i.natAbs
  obtain ⟨k, rfl⟩ : ∃ k, cut = k + 1 := ⟨cut - 1, by omega⟩
  have hstart : IntScan.start Json.minus = some (.signed true) := rfl
  rw [Json.writeNumber, if_pos hi, hd, List.take_succ_cons, List.cons_append, scanInts, hstart] at hin
  simp only at hin
  cases k with
  | zero =>
    rw [List.take_zero, List.nil_append] at hin
    cases later with
    | nil => cases hin
    | cons j rest =>
      have htext : logText (j :: rest) = Json.writeNumber j ++ Json.newline :: logText rest := by
        rw [logText, List.flatMap_cons, List.append_assoc]
        rfl
      by_cases hj : 0 ≤ j
      · have hsame : scanInts (.signed true) (logText (j :: rest)) = scanInts (.digits true 0) (logText (j :: rest)) := by
          obtain ⟨e, es, he, hedigit, -⟩ := decimal_cons j.natAbs
          rw [htext, Json.writeNumber, if_neg (by omega), he, List.cons_append, scanInts, scanInts, if_pos hedigit,
            if_pos hedigit, Nat.mul_zero, Nat.zero_add]
        rw [hsame] at hin
        exact mem_joined hlater (fun _ => ⟨j, rfl, hj⟩) hx hin
      · rw [htext, Json.writeNumber, if_pos (by omega), List.cons_append, scanInts_unread rfl (by simp) rfl] at hin
        cases hin
  | succ k =>
    have hall : ∀ b ∈ ds.take k, isDigit b = true := fun b hb =>
      isDigit_of_mem_decimal (hd ▸ List.mem_cons_of_mem d (List.mem_of_mem_take hb))
    rw [List.take_succ_cons, List.cons_append, scanInts, if_pos hdigit, scanInts_digits true hall] at hin
    refine mem_joined hlater (fun hzero => ?_) hx hin
    have hd0 : d.toNat = 0x30 := by
      obtain ⟨hlow, -⟩ := isDigit_iff.1 hdigit
      rw [foldl_digits] at hzero
      have hpow : 0 < 10 ^ (ds.take k).length := Nat.pow_pos (by decide)
      have hmul := (Nat.mul_eq_zero.1 (Nat.eq_zero_of_add_eq_zero_right hzero)).resolve_right (by omega)
      omega
    have hvalue := digitsValue_decimal i.natAbs
    rw [hd, hfront (UInt8.toNat_inj.1 hd0), digitsValue, List.foldl_cons, List.foldl_nil] at hvalue
    omega

/-- **A torn log** read with the lines appended later: what was appended, and the torn number. -/
theorem mem_readLog_torn {old later : List Int} (hold : ∀ i ∈ old, IntRange i) (hlater : ∀ j ∈ later, IntRange j) (cut : Nat) :
    (∀ x, 0 ≤ x → x ∈ readLog ((logText old).take cut ++ logText later) →
      x ∈ old ∨ x ∈ later ∨ tornNumber old cut later = some x.toNat ∧ IntRange x) ∧
    ∀ v, tornNumber old cut later = some v → IntRange v → (v : Int) ∈ readLog ((logText old).take cut ++ logText later) := by
  have hwhole : readLog (logText later) = later := readLog_logText hlater
  induction old generalizing cut with
  | nil =>
    rw [logText, List.flatMap_nil, List.take_nil, List.nil_append, hwhole]
    exact ⟨fun x _ hx => Or.inr (Or.inl hx), fun v hv => by cases hv⟩
  | cons i old ih =>
    obtain ⟨hi, hrest⟩ := List.forall_mem_cons.1 hold
    have hlen := length_writeNumber i
    have htext : logText (i :: old) = Json.writeNumber i ++ Json.newline :: logText old := by
      rw [logText, List.flatMap_cons, List.append_assoc]
      rfl
    rw [htext, tornNumber, ← hlen]
    by_cases hline : (Json.writeNumber i).length < cut
    · -- the line is whole
      obtain ⟨k, rfl⟩ : ∃ k, cut = (Json.writeNumber i).length + (k + 1) := ⟨cut - (Json.writeNumber i).length - 1, by omega⟩
      have hread : readLog ((Json.writeNumber i ++ Json.newline :: logText old).take ((Json.writeNumber i).length + (k + 1)) ++
          logText later) = i :: readLog ((logText old).take k ++ logText later) := by
        rw [List.take_length_add_append, List.take_succ_cons, List.append_assoc, List.cons_append, readLog, scanInts_line hi]
        rfl
      obtain ⟨hsound, hcomplete⟩ := ih hrest k
      rw [hread, if_pos hline, show (Json.writeNumber i).length + (k + 1) - ((Json.writeNumber i).length + 1) = k by omega]
      refine ⟨fun x hx hin => ?_, fun v hv hrange => List.mem_cons_of_mem i (hcomplete v hv hrange)⟩
      rcases List.mem_cons.1 hin with rfl | hin
      · exact Or.inl List.mem_cons_self
      · exact (hsound x hx hin).imp_left (List.mem_cons_of_mem i)
    · rw [if_neg hline, List.take_append_of_le_length (by omega)]
      by_cases hcut : 0 < cut
      · by_cases hneg : 0 ≤ i
        · rw [if_pos ⟨hcut, hneg⟩, readLog, scanInts_cutDigits hneg hcut]
          generalize i.toNat / 10 ^ ((decimal i.toNat).length - cut) = v
          rcases scanInts_joined false v hlater with ⟨hnone, hout⟩ | ⟨hrange, rest, hsuffix, hread⟩
          · rw [hnone]
            refine ⟨fun x _ hx => (by cases hx), fun w hw hrange => ?_⟩
            obtain rfl := Option.some.inj hw
            exact absurd hrange hout
          · rw [hread]
            refine ⟨fun x _ hx => ?_, fun w hw _ => ?_⟩
            · rcases List.mem_cons.1 hx with rfl | hx
              · exact Or.inr (Or.inr ⟨rfl, hrange⟩)
              · exact Or.inr (Or.inl (hsuffix.subset hx))
            · obtain rfl := Option.some.inj hw
              exact List.mem_cons_self
        · rw [if_neg fun h => hneg h.2]
          exact ⟨fun x hx hin => Or.inr (Or.inl (mem_cutMinus (by omega) hcut hlater hx hin)), fun v hv => by cases hv⟩
      · obtain rfl : cut = 0 := by omega
        rw [if_neg fun h => hcut h.1, List.take_zero, List.nil_append, hwhole]
        exact ⟨fun x _ hx => Or.inr (Or.inl hx), fun v hv => by cases hv⟩

/-! ## The manifest with its log -/

namespace TransferBytes

/-- Calls of `AppendCompletedIndices`, one after another. -/
def afterBatches (t : TransferBytes) (batches : List (List Int)) : TransferBytes :=
  batches.foldl (fun t b => t.after (appendWrites b .done)) t

/-- What a crash leaves of the log. -/
def cutLog (t : TransferBytes) (cut : Nat) : TransferBytes := { t with log := t.log.map (·.take cut) }

/-- `LoadUploadManifest` gives back the manifest, with these bits. -/
def Loads (t : TransferBytes) (m : UploadManifest) (bits : List Bool) : Prop :=
  t.files.loadUploadManifest true true = some { m with completedChunks := bits } ∧ bits.length = m.chunkHashes.length

theorem afterBatches_eq (t : TransferBytes) (batches : List (List Int)) :
    (t.afterBatches batches).manifest = t.manifest ∧
      (t.afterBatches batches).log.getD [] = t.log.getD [] ++ logText batches.flatten := by
  induction batches generalizing t with
  | nil => exact ⟨rfl, by simp [afterBatches, logText]⟩
  | cons b batches ih =>
    have happend := after_appendWrites t b (show WriteOutcome.done ≠ .failed by decide)
    obtain ⟨hmanifest, hlog⟩ := ih (t.after (appendWrites b .done))
    rw [afterBatches, List.foldl_cons, List.flatten_cons, logText_append, ← List.append_assoc]
    rw [happend] at hmanifest hlog ⊢
    exact ⟨hmanifest, hlog⟩

theorem cutLog_eq (t : TransferBytes) (cut : Nat) :
    (t.cutLog cut).manifest = t.manifest ∧ (t.cutLog cut).log.getD [] = (t.log.getD []).take cut := by
  obtain ⟨manifest, log⟩ := t
  cases log with
  | none => exact ⟨rfl, by simp [cutLog]⟩
  | some text => exact ⟨rfl, rfl⟩

theorem loads_readLog {t : TransferBytes} {m : UploadManifest} (h : t.manifest = some (manifestText m)) :
    t.Loads m (TransferFiles.markCompleted m.chunkHashes.length (readLog (t.log.getD []))) := by
  refine ⟨?_, TransferFiles.length_markCompleted ..⟩
  rw [TransferFiles.loadUploadManifest_eq_some]
  refine ⟨rfl, { m with completedChunks := [] }, ?_, ?_⟩
  · rw [files, h, Option.map_some, readManifest_manifestText]
  · simp only [if_true, files_log]

end TransferBytes

/-- **The log decodes to what was appended**, and after a crash to nothing else exactly when the torn number is not the
index of a chunk that was never appended. -/
theorem torn_log_iff {t : TransferBytes} (hlog : t.log.getD [] = []) (m : UploadManifest) {batches : List (List Int)}
    (hbatches : ∀ i ∈ batches.flatten, IntRange i) :
    (∃ bits, ((t.after (saveWrites m .done)).afterBatches batches).Loads m bits ∧
      ∀ k, bits[k]? = some true ↔ k < m.chunkHashes.length ∧ (k : Int) ∈ batches.flatten) ∧
    ∀ (cut : Nat) (later : List (List Int)), (∀ j ∈ later.flatten, IntRange j) →
      ((∃ bits, ((((t.after (saveWrites m .done)).afterBatches batches).cutLog cut).afterBatches later).Loads m bits ∧
        ∀ k : Nat, bits[k]? = some true → (k : Int) ∈ batches.flatten ++ later.flatten) ↔
      ∀ v, tornNumber batches.flatten cut later.flatten = some v → v < m.chunkHashes.length → IntRange v →
        (v : Int) ∈ batches.flatten ++ later.flatten) := by
  have hsaved := TransferBytes.after_saveWrites t m
  obtain ⟨hmanifest, htext⟩ := (t.after (saveWrites m .done)).afterBatches_eq batches
  rw [hsaved] at hmanifest htext ⊢
  rw [hlog, List.nil_append] at htext
  constructor
  · refine ⟨_, TransferBytes.loads_readLog hmanifest, fun k => ?_⟩
    rw [htext, readLog_logText hbatches]
    exact TransferFiles.getElem?_markCompleted ..
  · intro cut later hlater
    obtain ⟨hcutManifest, hcut⟩ := (TransferBytes.afterBatches ⟨some (manifestText m), t.log⟩ batches).cutLog_eq cut
    obtain ⟨hlastManifest, hlast⟩ :=
      ((TransferBytes.afterBatches ⟨some (manifestText m), t.log⟩ batches).cutLog cut).afterBatches_eq later
    rw [hcut, htext] at hlast
    obtain ⟨hsound, hcomplete⟩ := mem_readLog_torn hbatches hlater cut
    have hloads := TransferBytes.loads_readLog (hlastManifest.trans (hcutManifest.trans hmanifest))
    rw [hlast] at hloads
    constructor
    · rintro ⟨bits, hbits, honly⟩ v hv hlt hrange
      have hsame := hbits.1.symm.trans hloads.1
      rw [Option.some.injEq, UploadManifest.mk.injEq] at hsame
      obtain rfl := hsame.2.2.2.2.2
      exact honly v ((TransferFiles.getElem?_markCompleted ..).2 ⟨hlt, hcomplete v hv hrange⟩)
    · intro hcond
      refine ⟨_, hloads, fun k hk => ?_⟩
      obtain ⟨hlt, hin⟩ := (TransferFiles.getElem?_markCompleted ..).1 hk
      rcases hsound k (Int.natCast_nonneg k) hin with hold | hnew | ⟨htorn, hrange⟩
      · exact List.mem_append_left _ hold
      · exact List.mem_append_right _ hnew
      · exact hcond k htorn hlt hrange

/-- The saved manifest of a file of thirteen chunks. -/
def thirteenChunks : UploadManifest := ⟨"/home/ann/a", 13631488, 1, 1, List.replicate 13 sampleHash, []⟩

/-- The line of chunk 12 is cut after its first digit; with the `2` that is written next it reads 12 again. -/
theorem torn_log_appended :
    let t : TransferBytes := ⟨none, none⟩
    let t' := (((t.after (saveWrites thirteenChunks .done)).afterBatches [[0, 12]]).cutLog 3).afterBatches [[2], [5]]
    ∃ bits, t'.Loads thirteenChunks bits ∧ ∀ k : Nat, bits[k]? = some true → (k : Int) ∈ [[0, 12]].flatten ++ [[2], [5]].flatten := by
  have hempty : (⟨none, none⟩ : TransferBytes).log.getD [] = [] := rfl
  have hbatches : ∀ i ∈ [[0, 12]].flatten, IntRange i := by decide
  have htorn : tornNumber [[0, 12]].flatten 3 [[2], [5]].flatten = some 12 := by decide +kernel
  refine ((torn_log_iff hempty thirteenChunks hbatches).2 3 [[2], [5]] (by decide)).2 fun v hv _ _ => ?_
  obtain rfl := Option.some.inj (htorn.symm.trans hv)
  decide

/-- The line of chunk 12 is cut after its first digit, and chunk 1 is marked. -/
theorem tornLog_marks : ¬ ∀ (t : TransferBytes) (m : UploadManifest) (batches later : List (List Int)) (cut : Nat),
    t.log.getD [] = [] → (∀ i ∈ batches.flatten, IntRange i) → (∀ j ∈ later.flatten, IntRange j) →
    ∃ bits, ((((t.after (saveWrites m .done)).afterBatches batches).cutLog cut).afterBatches later).Loads m bits ∧
      ∀ k : Nat, bits[k]? = some true → (k : Int) ∈ batches.flatten ++ later.flatten := by
  intro h
  obtain ⟨bits, hbits, honly⟩ := h ⟨none, none⟩ thirteenChunks [[12]] [] 1 rfl (by decide) (by simp)
  have hsaved := TransferBytes.after_saveWrites ⟨none, none⟩ thirteenChunks
  have hloads : ((((⟨none, none⟩ : TransferBytes).after (saveWrites thirteenChunks .done)).afterBatches [[12]]).cutLog 1).Loads
      thirteenChunks (TransferFiles.markCompleted 13 [1]) := by
    rw [hsaved]
    exact TransferBytes.loads_readLog rfl
  have hsame := hbits.1.symm.trans hloads.1
  rw [Option.some.injEq, UploadManifest.mk.injEq] at hsame
  have hone := honly 1
  rw [hsame.2.2.2.2.2] at hone
  exact absurd (hone (by decide)) (by decide)

end StorageEngine
