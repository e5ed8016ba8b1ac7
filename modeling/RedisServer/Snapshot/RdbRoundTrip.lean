import RedisServer.Snapshot.RdbRecords

/-! When a saved snapshot loads. The easy half is that a fitting count byte is
enough. For the other half every string the loader can read is charged with
the bytes it takes at least, which is what the saver spends on it: a file with
too small a count has no bytes left for the section opcode that would make the
loader read on. -/
namespace RedisServer

open Machine

section Spent

/-- The least number of bytes from which a string can be read. -/
def stringCost (s : Bytes) : Nat := if s = [] then 1 else (writeRdbString s).1.length

theorem digitsValue_lt (digits : Bytes) (h : ∀ c ∈ digits, isDigit c = true) :
    digitsValue digits < 10 ^ digits.length := by
  induction digits using List.reverseRecOn with
  | nil => simp [digitsValue]
  | append_singleton digits c ih =>
      have hc := isDigit_iff.mp (h c (by simp))
      have hRest := ih (fun d hd => h d (List.mem_append_left _ hd))
      rw [digitsValue_append, List.length_append, List.length_singleton, pow_succ]
      omega

/-- A number has no more decimal places than bytes were taken for it. -/
theorem natAbs_strtol_lt (text : Bytes) : (strtol text).value.natAbs < 10 ^ (strtol text).stop := by
  unfold strtol
  generalize hBody : text.dropWhile isSpace = body
  dsimp only
  split
  · simp
  · dsimp only
    generalize hDigits : (body.drop (signLength body)).takeWhile isDigit = digits
    have hAll : ∀ c ∈ digits, isDigit c = true := fun c hc =>
      List.mem_takeWhile_imp (hDigits ▸ hc)
    have hLt := digitsValue_lt digits hAll
    have hPow : 10 ^ digits.length ≤
        10 ^ ((text.takeWhile isSpace).length + signLength body + digits.length) :=
      Nat.pow_le_pow_right (by omega) (by omega)
    split <;> omega

theorem writeRdbString_length_le (s : Bytes) (hne : s ≠ []) (hLength : s.length < 2 ^ 31) :
    (writeRdbString s).1.length ≤
      (if s.length ≤ 63 then 1 else if s.length ≤ 16383 then 2 else 5) + s.length := by
  have hPos : 1 ≤ s.length := List.length_pos_iff.mpr hne
  have hLen : toInt32 s.length = s.length := toInt32_of_small (by omega) (by omega)
  have hAbs := natAbs_strtol_lt s
  have hPlaces : ∀ n, (strtol s).stop = s.length → s.length ≤ n →
      (strtol s).value.natAbs < 10 ^ n := by
    intro n hStop hn
    exact hAbs.trans_le (Nat.pow_le_pow_right (by omega) (by omega))
  have hHeader : 1 ≤ (if s.length ≤ 63 then 1 else if s.length ≤ 16383 then 2 else 5) := by
    split_ifs <;> omega
  unfold writeRdbString
  simp only [hLen, Int.toNat_natCast, List.take_length]
  split
  · simp only [List.length_cons, littleEndian_length]
    omega
  · rename_i h8
    split
    · rename_i h16
      have hThree : 3 ≤ s.length := by
        by_contra hShort
        have := hPlaces 2 h16.1 (by omega)
        omega
      simp only [List.length_cons, littleEndian_length]
      omega
    · rename_i h16
      split
      · rename_i h32
        have hFive : 5 ≤ s.length := by
          by_contra hShort
          have := hPlaces 4 h32.1 (by omega)
          omega
        simp only [List.length_cons, littleEndian_length]
        omega
      · by_cases h63 : s.length ≤ 63
        · rw [if_pos h63, if_pos (by omega)]
          simp only [List.length_cons]
          omega
        · rw [if_neg h63, if_neg (by omega)]
          by_cases h14 : s.length ≤ 16383
          · rw [if_pos h14, if_pos (by omega)]
            simp only [List.length_cons]
            omega
          · rw [if_neg h14, if_neg (by omega)]
            simp only [List.length_append, List.length_cons, bigEndian_length]
            omega

/-- The text of an integer of `width` bytes costs at most those bytes. -/
theorem writeRdbString_intText_length_le {width : Nat} (hWidth : width = 1 ∨ width = 2 ∨ width = 4)
    {v : Int} (hLow : -((256 ^ width : Nat) / 2 : Int) ≤ v)
    (hHigh : v < ((256 ^ width : Nat) : Int) / 2) :
    (writeRdbString (intText v)).1.length ≤ 1 + width := by
  obtain ⟨hStop, hClamped⟩ := strtol_intText v
  have hValue : (strtol (intText v)).value = v := by
    rcases hWidth with rfl | rfl | rfl <;> omega
  unfold writeRdbString
  simp only [hStop, hValue, true_and]
  rcases hWidth with rfl | rfl | rfl
  · rw [if_pos (by omega)]
    simp
  · split
    · simp
    · rw [if_pos (by omega)]
      simp
  · split
    · simp
    · split
      · simp
      · rw [if_pos (by omega)]
        simp

variable {file file' s : Bytes}

/-- The cost of a text whose length header takes `header` bytes. -/
theorem stringCost_readRdbBody {header : Nat} {len : Int}
    (hHeader : header = 1 ∧ len ≤ 63 ∨ header = 2 ∧ len ≤ 16383 ∨ header = 5) (hLen : len < 2 ^ 31)
    (h : readRdbBody len file = (some s, file')) :
    stringCost s + file'.length ≤ header + file.length := by
  unfold readRdbBody at h
  split at h
  · cases h
  · split at h
    · cases h
    · cases h
      have hTake := cString_length_le (file.take len.toNat)
      rw [List.length_take] at hTake
      rw [List.length_drop]
      unfold stringCost
      split
      · omega
      · rename_i hne
        have hWrite := writeRdbString_length_le _ hne (by omega)
        have hSmall : (if (cString (file.take len.toNat)).length ≤ 63 then 1
            else if (cString (file.take len.toNat)).length ≤ 16383 then 2 else 5) ≤ header := by
          split_ifs <;> omega
        omega

theorem stringCost_readRdbInteger {width : Nat} (hWidth : width = 1 ∨ width = 2 ∨ width = 4)
    (h : readRdbInteger width file = (some s, file')) :
    stringCost s + file'.length ≤ 1 + file.length := by
  unfold readRdbInteger at h
  split at h
  · cases h
  · cases h
    rw [List.length_drop]
    have hLow := Int.le_bmod (x := (fromLittleEndian (file.take width) : Int)) (m := 256 ^ width)
      (by rcases hWidth with rfl | rfl | rfl <;> decide)
    have hHigh := Int.bmod_lt (x := (fromLittleEndian (file.take width) : Int)) (m := 256 ^ width)
      (by rcases hWidth with rfl | rfl | rfl <;> decide)
    have hWrite := writeRdbString_intText_length_le hWidth hLow
      (by rcases hWidth with rfl | rfl | rfl <;> omega)
    unfold stringCost
    split <;> omega

theorem readRdbLength_spec {count : Nat} {acc len : Int} (hAcc : acc < 2 ^ 31)
    (h : readRdbLength count acc file = (some len, file')) :
    file.length = count + file'.length ∧ len < 2 ^ 31 := by
  induction count generalizing acc file with
  | zero =>
      simp only [readRdbLength, Prod.mk.injEq, Option.some.injEq] at h
      obtain ⟨rfl, rfl⟩ := h
      exact ⟨by omega, hAcc⟩
  | succ count ih =>
      cases file with
      | nil => cases h
      | cons byte file =>
          rw [readRdbLength_cons] at h
          split at h
          · cases h
          · have hNext : toInt32 (acc * 256 + byte.toNat) < 2 ^ 31 :=
              Int.bmod_lt (m := 2 ^ 32) (by decide)
            obtain ⟨hLength, hLen⟩ := ih hNext h
            exact ⟨by rw [List.length_cons]; omega, hLen⟩

/-- No string is read from fewer bytes than the saver would spend on it. -/
theorem stringCost_le (h : readRdbString file = (some s, file')) :
    stringCost s + file'.length ≤ file.length := by
  cases file with
  | nil => cases h
  | cons first file =>
      rw [List.length_cons]
      simp only [readRdbString] at h
      split at h
      · have := stringCost_readRdbBody (Or.inl ⟨rfl, by omega⟩) (by omega) h
        omega
      split at h
      · cases file with
        | nil => cases h
        | cons second file =>
            have hSecond := second.toNat_lt
            have := stringCost_readRdbBody (Or.inr (Or.inl ⟨rfl, by omega⟩)) (by omega) h
            rw [List.length_cons]
            omega
      split at h
      · cases hRead : readRdbLength 4 0 file with
        | mk len body =>
            rw [hRead] at h
            cases len with
            | none => cases h
            | some len =>
                obtain ⟨hLength, hLen⟩ := readRdbLength_spec (by omega) hRead
                have := stringCost_readRdbBody (Or.inr (Or.inr rfl)) hLen h
                omega
      split at h
      · have := stringCost_readRdbInteger (by omega) h
        omega
      split at h
      · have := stringCost_readRdbInteger (by omega) h
        omega
      split at h
      · have := stringCost_readRdbInteger (by omega) h
        omega
      · cases h

end Spent

section Progress

/-- The least number of bytes from which a deadline can be read: the seconds
form reaches only as far as 32 bits. -/
def deadlineCost (expiration : Int) : Nat :=
  if expiration ≤ 0 then 0 else if expiration < 2 ^ 32 then 5 else 9

theorem deadlineCost_loadExpiry {file file' : Bytes} {expireTime : Nat}
    (h : loadExpiry file = some (expireTime, file')) :
    deadlineCost ((expireTime : Int).bmod (2 ^ 64)) + file'.length ≤ file.length := by
  cases file with
  | nil => cases h
  | cons type file =>
      simp only [loadExpiry] at h
      rw [List.length_cons]
      split at h
      · split at h
        · cases h
        · cases h
          have hCost : deadlineCost
              (((fromLittleEndian (file.take 4) * 1000 % 2 ^ 32 : Nat) : Int).bmod (2 ^ 64)) ≤ 5 := by
            rw [Int.bmod_eq_of_le (by omega) (by omega)]
            unfold deadlineCost
            split_ifs <;> omega
          rw [List.length_drop]
          omega
      · split at h
        · split at h
          · cases h
          · cases h
            have hCost : ∀ e, deadlineCost e ≤ 9 := by
              intro e
              unfold deadlineCost
              split_ifs <;> omega
            have := hCost ((fromLittleEndian (file.take 8) : Int).bmod (2 ^ 64))
            rw [List.length_drop]
            omega
        · cases h
          exact le_of_eq (Nat.zero_add _)

/-- The least number of bytes from which a string entry can be read. -/
def pairCost (key value : Bytes) (expiration : Int) : Nat :=
  deadlineCost expiration + 1 + stringCost key + stringCost value

/-- What one record can do: nothing, or store one string that it pays for. -/
theorem loadPair_cases {db db' : RedisDb} {file file' : Bytes}
    (h : loadPair db file = some (db', file')) :
    db' = db ∧ file'.length ≤ file.length ∨
      ∃ key value expiration, db' = redisDbSet db key value expiration ∧
        pairCost key value expiration + file'.length ≤ file.length := by
  unfold loadPair at h
  cases hExpiry : loadExpiry file with
  | none =>
      rw [hExpiry] at h
      cases h
  | some found =>
      obtain ⟨expireTime, rest⟩ := found
      have hDeadline := deadlineCost_loadExpiry hExpiry
      rw [hExpiry] at h
      cases rest with
      | nil =>
          cases h
          exact Or.inl ⟨rfl, Nat.zero_le _⟩
      | cons type rest =>
          rw [List.length_cons] at hDeadline
          dsimp only at h
          split at h
          · cases hKey : readRdbString rest with
            | mk key body =>
                rw [hKey] at h
                cases key with
                | none => cases h
                | some key =>
                    cases hValue : readRdbString body with
                    | mk value tail =>
                        simp only [hValue] at h
                        cases value with
                        | none => cases h
                        | some value =>
                            cases h
                            have h1 := stringCost_le hKey
                            have h2 := stringCost_le hValue
                            refine Or.inr ⟨key, value, _, rfl, ?_⟩
                            unfold pairCost
                            omega
          · cases h
            exact Or.inl ⟨rfl, by omega⟩

end Progress

section Charge

/-- What an entry costs. Only the string and the positive deadline matter. -/
def entryCost (e : Bytes × RedisData × Option Int) : Nat :=
  match e.2.1 with
  | .str s => pairCost e.1 s (e.2.2.getD 0)
  | .list _ => 0

/-- An entry as a reader of the store sees it. -/
def seen (e : Sigma fun _ : Bytes => RedisValue) : Bytes × RedisData × Option Int :=
  (e.1, e.2.visible)

def entriesCost (es : List (Sigma fun _ : Bytes => RedisValue)) : Nat :=
  (es.map (fun e => entryCost (seen e))).sum

theorem entryCost_str (key s : Bytes) (expiration : Int) :
    entryCost (seen ⟨key, .str s, expiration⟩) = pairCost key s expiration := by
  have hDeadline : deadlineCost
      ((if 0 < expiration then some expiration else none : Option Int).getD 0) =
        deadlineCost expiration := by
    split
    · rfl
    · unfold deadlineCost
      rw [if_pos (by simp), if_pos (by omega)]
  simp only [entryCost, seen, RedisValue.visible, pairCost, hDeadline]

theorem entriesCost_redisDbSet (db : RedisDb) (key value : Bytes) (expiration : Int) :
    entriesCost (redisDbSet db key value expiration).h.entries ≤
      pairCost key value expiration + entriesCost db.h.entries := by
  have hTable : (redisDbSet db key value expiration).h = db.h.insert key ⟨.str value, expiration⟩ :=
    db.set_h key (.str value) expiration
  have hRest : entriesCost (db.h.entries.kerase key) ≤ entriesCost db.h.entries :=
    ((List.kerase_sublist key db.h.entries).map _).sum_le_sum fun _ _ => Nat.zero_le _
  rw [hTable, AList.entries_insert]
  unfold entriesCost at hRest ⊢
  rw [List.map_cons, List.sum_cons, entryCost_str]
  omega

theorem loadPairs_cost {count : Nat} {db db' : RedisDb} {file : Bytes} {rest : Option Bytes}
    (h : loadPairs count db file = (db', rest)) :
    entriesCost db'.h.entries + (rest.getD []).length ≤ entriesCost db.h.entries + file.length ∧
      (rest.getD []).length ≤ file.length := by
  induction count generalizing db file with
  | zero =>
      cases h
      exact ⟨le_rfl, le_rfl⟩
  | succ count ih =>
      unfold loadPairs at h
      cases hPair : loadPair db file with
      | none =>
          rw [hPair] at h
          cases h
          exact ⟨Nat.add_le_add_left (Nat.zero_le _) _, Nat.zero_le _⟩
      | some found =>
          obtain ⟨next, body⟩ := found
          rw [hPair] at h
          obtain ⟨hCost, hLength⟩ := ih h
          rcases loadPair_cases hPair with ⟨rfl, hBody⟩ | ⟨key, value, expiration, rfl, hBody⟩
          · omega
          · have hSet := entriesCost_redisDbSet db key value expiration
            omega

/-- Sections that load anything spend three bytes on the opcode and the two
counts of a table. -/
theorem loadSections_cost {fuel : Nat} {db db' : RedisDb} {file : Bytes} {code : Int}
    (h : loadSections fuel db file = (db', code)) :
    db' = db ∨ entriesCost db'.h.entries + 3 ≤ entriesCost db.h.entries + file.length := by
  induction fuel generalizing db file with
  | zero =>
      cases file <;>
        · cases h
          exact Or.inl rfl
  | succ fuel ih =>
      cases file with
      | nil =>
          cases h
          exact Or.inl rfl
      | cons opcode file =>
          rw [List.length_cons]
          simp only [loadSections] at h
          split at h
          · cases hMeta : loadMetadata file.length file with
            | none =>
                rw [hMeta] at h
                cases h
                exact Or.inl rfl
            | some rest =>
                rw [hMeta] at h
                have hLength := loadMetadata_length_le hMeta
                refine (ih h).imp_right fun hCost => ?_
                omega
          split at h
          · rcases file with - | ⟨kvSize, - | ⟨expSize, file⟩⟩
            · cases h
              exact Or.inl rfl
            · cases h
              exact Or.inl rfl
            · cases hPairs : loadPairs kvSize.toNat db file with
              | mk next rest =>
                  obtain ⟨hCost, hLength⟩ := loadPairs_cost hPairs
                  simp only [hPairs] at h
                  rw [List.length_cons, List.length_cons]
                  right
                  cases rest with
                  | none =>
                      cases h
                      omega
                  | some rest =>
                      dsimp only [Option.getD_some] at hCost hLength
                      rcases ih h with rfl | hRest
                      · omega
                      · omega
          split at h
          · cases file <;>
              · cases h
                exact Or.inl rfl
          split at h
          · cases h
            exact Or.inl rfl
          · refine (ih h).imp_right fun hCost => ?_
            omega

end Charge

section Shortage

theorem Survives.ne_nil {s : Bytes} (h : Survives s) : s ≠ [] := by
  rintro rfl
  exact absurd h (by decide)

theorem Survives.stringCost_eq {s : Bytes} (h : Survives s) :
    stringCost s = (writeRdbString s).1.length := if_neg h.ne_nil

/-- A deadline that only the milliseconds form can hold. -/
def RedisValue.LateDeadline (v : RedisValue) : Prop := v.expiration ≤ 0 ∨ 2 ^ 32 ≤ v.expiration

/-- The saver spends on an entry what the entry costs. -/
theorem saveValue_length {e : Sigma fun _ : Bytes => RedisValue} (hStored : e.2.Stored)
    (hSurvives : EntrySurvives e) (hLate : e.2.LateDeadline) :
    (saveValue e.1 e.2).length = entryCost (seen e) := by
  obtain ⟨key, data, deadline⟩ := e
  cases data with
  | list xs =>
      have hNone : deadline ≤ 0 := hStored.list rfl
      simp [saveValue, entryCost, seen, RedisValue.visible, hNone]
  | str s =>
      have hLate : deadline ≤ 0 ∨ 2 ^ 32 ≤ deadline := hLate
      have hDeadline : (if deadline > 0 then 0xFC :: littleEndian 8 deadline else []).length =
          deadlineCost deadline := by
        unfold deadlineCost
        rcases hLate with h | h
        · rw [if_neg (by omega), if_pos h]
          rfl
        · rw [if_pos (by omega), if_neg (by omega), if_neg (by omega), List.length_cons,
            littleEndian_length]
      rw [entryCost_str]
      simp only [saveValue, List.length_append, List.length_cons, hDeadline, pairCost,
        hSurvives.1.stringCost_eq, Survives.stringCost_eq (s := s) hSurvives.2]
      omega

theorem savedRecords_length {es : List (Sigma fun _ : Bytes => RedisValue)}
    (hStored : ∀ e ∈ es, e.2.Stored)
    (hSurvives : ∀ e ∈ es, EntrySurvives e)
    (hLate : ∀ e ∈ es, e.2.LateDeadline) :
    (es.flatMap (fun e => saveValue e.1 e.2)).length = entriesCost es := by
  rw [List.length_flatMap, entriesCost]
  congr 1
  exact List.map_congr_left fun e he =>
    saveValue_length (hStored e he) (hSurvives e he) (hLate e he)

theorem entriesCost_restore (es : List (Sigma fun _ : Bytes => RedisValue)) (db : RedisDb) :
    entriesCost (es.foldl restore db).h.entries ≤ entriesCost db.h.entries + entriesCost es := by
  induction es generalizing db with
  | nil => exact le_rfl
  | cons e es ih =>
      have hRest := ih (restore db e)
      have hHead : entriesCost (restore db e).h.entries ≤
          entriesCost db.h.entries + entryCost (seen e) := by
        obtain ⟨key, data, deadline⟩ := e
        cases data with
        | list xs => exact Nat.le_add_right _ _
        | str s =>
            have hSet := entriesCost_redisDbSet db key s (max deadline 0)
            have hDeadline : deadlineCost (max deadline 0) = deadlineCost deadline := by
              unfold deadlineCost
              split_ifs <;> omega
            rw [entryCost_str]
            rw [pairCost, hDeadline] at hSet
            rw [pairCost]
            exact hSet.trans (le_of_eq (Nat.add_comm _ _))
      rw [List.foldl_cons]
      unfold entriesCost at hRest hHead ⊢
      rw [List.map_cons, List.sum_cons]
      omega

theorem nodup_map_seen {es : List (Sigma fun _ : Bytes => RedisValue)} (h : es.NodupKeys) :
    (es.map seen).Nodup := by
  apply List.Nodup.of_map Prod.fst
  rw [List.map_map]
  exact h

theorem entriesCost_filter (es : List (Sigma fun _ : Bytes => RedisValue)) :
    entriesCost (es.filter (fun e => e.2.isString)) = entriesCost es := by
  induction es with
  | nil => rfl
  | cons e es ih =>
      obtain ⟨key, data, deadline⟩ := e
      unfold entriesCost at ih ⊢
      cases data with
      | list xs =>
          rw [List.filter_cons_of_neg (by simp [RedisValue.isString]), ih, List.map_cons,
            List.sum_cons]
          exact (Nat.zero_add _).symm
      | str s =>
          rw [List.filter_cons_of_pos (by rfl), List.map_cons, List.map_cons, List.sum_cons,
            List.sum_cons, ih]

theorem mem_map_seen {t : Table Bytes RedisValue} (key : Bytes) {w : RedisData × Option Int}
    (p : RedisValue → Bool) :
    (key, w) ∈ (t.entries.filter (fun e => p e.2)).map seen ↔
      ((t.lookup key).filter p).map RedisValue.visible = some w := by
  simp only [List.mem_map, List.mem_filter, Option.map_eq_some_iff, Option.filter_eq_some_iff, seen,
    Prod.mk.injEq]
  constructor
  · rintro ⟨e, ⟨he, hp⟩, rfl, hw⟩
    exact ⟨e.2, ⟨AList.mem_lookup_iff.mpr he, hp⟩, hw⟩
  · rintro ⟨v, ⟨hFind, hp⟩, hw⟩
    exact ⟨⟨key, v⟩, ⟨AList.mem_lookup_iff.mp hFind, hp⟩, rfl, hw⟩

/-- A store with exactly the string entries of another costs the same. -/
theorem entriesCost_of_restored {db loaded : RedisDb} (h : Restored db loaded) :
    entriesCost loaded.h.entries = entriesCost db.h.entries := by
  have hPerm : (loaded.h.entries.map seen).Perm
      ((db.h.entries.filter (fun e => e.2.isString)).map seen) := by
    rw [List.perm_ext_iff_of_nodup (nodup_map_seen loaded.h.nodupKeys)
      (nodup_map_seen (db.h.nodupKeys.sublist List.filter_sublist))]
    rintro ⟨key, w⟩
    have hAll := mem_map_seen (t := loaded.h) (w := w) key (fun _ => true)
    rw [mem_map_seen, ← h key]
    simpa using hAll
  have hSum := (hPerm.map entryCost).sum_eq
  rw [List.map_map, List.map_map] at hSum
  rw [← entriesCost_filter db.h.entries]
  exact hSum

theorem exists_split_of_lt_countP {α : Type*} (p : α → Bool) (es : List α) {n : Nat}
    (h : n < es.countP p) : ∃ before x after, es = before ++ x :: after ∧
      before.countP p = n ∧ p x = true := by
  induction es generalizing n with
  | nil => simp at h
  | cons e es ih =>
      by_cases he : p e = true
      · cases n with
        | zero => exact ⟨[], e, es, rfl, rfl, he⟩
        | succ n =>
            rw [List.countP_cons_of_pos he] at h
            obtain ⟨before, x, after, rfl, hCount, hx⟩ := ih (Nat.lt_of_succ_lt_succ h)
            exact ⟨e :: before, x, after, rfl, by rw [List.countP_cons_of_pos he, hCount], hx⟩
      · rw [List.countP_cons_of_neg he] at h
        obtain ⟨before, x, after, rfl, hCount, hx⟩ := ih h
        exact ⟨e :: before, x, after, rfl, by rw [List.countP_cons_of_neg he, hCount], hx⟩

/-- With a count byte that is too small, what is left in the file cannot hold
both the missing entries and another table opcode. So a store that holds nothing does
not get them. -/
theorem not_restored_of_too_few {db into : RedisDb} (hNothing : into.h.entries = [])
    (hCount : db.KeyCounted)
    (hStored : ∀ e ∈ db.h.entries, e.2.Stored)
    (hSurvives : ∀ e ∈ db.h.entries, EntrySurvives e)
    (hLate : ∀ e ∈ db.h.entries, e.2.LateDeadline)
    (h : Table.size db.h % 256 < Table.count RedisValue.isString db.h) :
    ¬Restored db (rdbLoadDataFromFile into (some (rdbSaveDataToFile db))).1 := by
  intro hRestored
  obtain ⟨before, x, after, hSplit, hBefore, hx⟩ := exists_split_of_lt_countP _ _ h
  have hTotal := entriesCost_of_restored hRestored
  have hPairs : loadPairs (Table.size db.h % 256) into (savedRecords db ++ [0xFF]) =
      (before.foldl restore into,
        some ((x :: after).flatMap (fun e => saveValue e.1 e.2) ++ [0xFF])) := by
    have hSub : ∀ e ∈ before, e ∈ db.h.entries := fun e he => by rw [hSplit]; simp [he]
    have hLoad := loadPairs_saveValue before into 0
      ((x :: after).flatMap (fun e => saveValue e.1 e.2) ++ [0xFF])
      (fun e he => hStored e (hSub e he)) (fun e he => hSurvives e (hSub e he))
    rw [hBefore, Nat.add_zero] at hLoad
    rw [savedRecords, hSplit, List.flatMap_append, List.append_assoc]
    exact hLoad
  have hRest : ((x :: after).flatMap (fun e => saveValue e.1 e.2)).length =
      entriesCost (x :: after) := by
    have hSub : ∀ e ∈ x :: after, e ∈ db.h.entries := fun e he => by
      rw [hSplit]
      exact List.mem_append_right _ he
    exact savedRecords_length (fun e he => hStored e (hSub e he))
      (fun e he => hSurvives e (hSub e he)) (fun e he => hLate e (hSub e he))
  have hSum : entriesCost db.h.entries = entriesCost before + entriesCost (x :: after) := by
    rw [hSplit]
    simp [entriesCost]
  have hFirst := entriesCost_restore before into
  have hEmpty : entriesCost into.h.entries = 0 := by rw [hNothing]; rfl
  have hSome : 1 ≤ entriesCost (x :: after) := by
    obtain ⟨key, data, deadline⟩ := x
    cases data with
    | list xs => cases hx
    | str s =>
        rw [entriesCost, List.map_cons, List.sum_cons, entryCost_str, pairCost]
        omega
  rw [rdbLoadDataFromFile_saved, kvSize_eq hCount, hPairs] at hTotal
  dsimp only at hTotal
  generalize hEnd : loadSections _ _ _ = result at hTotal
  obtain ⟨loaded, code⟩ := result
  rcases loadSections_cost hEnd with rfl | hCost
  · dsimp only at hTotal
    omega
  · rw [List.length_append, List.length_singleton, hRest] at hCost
    dsimp only at hTotal
    omega

end Shortage

section RoundTrip

/-- The loader reports success and the store has the saved strings. -/
def Loads (db : RedisDb) : Prop :=
  (rdbLoadDataFromFile redisDbCreate (some (rdbSaveDataToFile db))).2 = 0 ∧
    Restored db (rdbLoadDataFromFile redisDbCreate (some (rdbSaveDataToFile db))).1

theorem restored_foldl (db : RedisDb) :
    Restored db (db.h.entries.foldl restore redisDbCreate) := by
  intro key
  rw [foldl_restore_lookup db.h.entries db.h.nodupKeys, redisDbCreate, AList.lookup_empty]
  simp only [Option.map_none, Option.or_none]
  rfl

/-- A saved store whose keys and strings survive the string codec loads when
its count byte fits, and only then: with too large a count the loader fails,
and with too small a count it misses an entry. The last is left open for
stores with a deadline in the first 2^32 milliseconds of the epoch, whose
record is four bytes longer than the shortest that carries the deadline. -/
theorem snapshot_round_trip {db : RedisDb} (hReach : db.Reachable)
    (hSurvives : ∀ e ∈ db.h.entries, EntrySurvives e) :
    (CountFits db → Loads db) ∧
      (Loads db → CountFits db ∨
        Table.size db.h % 256 < Table.count RedisValue.isString db.h ∧
          ∃ e ∈ db.h.entries, ¬e.2.LateDeadline) := by
  obtain ⟨hCount, hStored⟩ := hReach.spec
  constructor
  · intro hFits
    rw [Loads, load_saved_of_countFits redisDbCreate hStored hSurvives hCount hFits]
    exact ⟨rfl, restored_foldl db⟩
  · rintro ⟨hCode, hRestored⟩
    by_cases hFits : CountFits db
    · exact Or.inl hFits
    · right
      unfold CountFits at hFits
      have hFew : Table.size db.h % 256 < Table.count RedisValue.isString db.h := by
        by_contra hMany
        have hFail := load_saved_of_too_many redisDbCreate hStored hSurvives hCount (by omega)
        rw [hCode] at hFail
        cases hFail
      refine ⟨hFew, ?_⟩
      by_contra hNone
      have hLate : ∀ e ∈ db.h.entries, e.2.LateDeadline := fun e he =>
        by_contra fun hEarly => hNone ⟨e, he, hEarly⟩
      exact not_restored_of_too_few rfl hCount hStored hSurvives hLate hFew hRestored

/-- A string and a list: the end marker takes the place of the list. -/
theorem snapshot_round_trip_one_list :
    Loads (run RedisDb.step redisDbCreate [.set [97] [120] 5, .lpush [98] [121] 0]).1 :=
  (snapshot_round_trip ⟨_, by decide, List.Perm.refl _, rfl, rfl⟩ (by decide)).1 (by decide)

/-- A string and two lists: the loader is told of three records, finds one,
and fails at the end of the file. -/
theorem snapshot_lost_with_two_lists :
    ¬∀ db : RedisDb, db.Reachable →
      (∀ e ∈ db.h.entries, EntrySurvives e) → Loads db := by
  intro h
  have hLoads := h
    (run RedisDb.step redisDbCreate [.set [97] [120] 5, .lpush [98] [121] 0, .lpush [99] [122] 0]).1
    ⟨_, by decide, List.Perm.refl _, rfl, rfl⟩ (by decide)
  exact absurd hLoads.1 (by decide)

end RoundTrip

end RedisServer
