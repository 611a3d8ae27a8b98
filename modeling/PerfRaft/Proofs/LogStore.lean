import Mathlib.Data.List.Induction
import PerfRaft.Log

namespace PerfRaft

namespace LogStore

variable {logs : LogStore} {entries : List Log} {e : Log}

theorem mem_of_mem_storeLogs
    (h : e ∈ logs.storeLogs entries) : e ∈ logs ∨ e ∈ entries := by
  induction entries generalizing logs with
  | nil => exact .inl h
  | cons entry rest ih =>
    rcases ih h with h' | h'
    · simp only [storeLog, List.mem_append, List.mem_filter, List.mem_singleton] at h'
      rcases h' with ⟨hmem, _⟩ | rfl
      · exact .inl hmem
      · exact .inr (by simp)
    · exact .inr (List.mem_cons_of_mem _ h')

theorem mem_of_mem_deleteRange {lo hi : Nat}
    (h : e ∈ logs.deleteRange lo hi) : e ∈ logs :=
  (List.mem_filter.mp h).1

variable {i : Nat}

theorem mem_of_getLog (h : logs.getLog i = some e) : e ∈ logs :=
  List.mem_of_find?_eq_some h

theorem index_of_getLog (h : logs.getLog i = some e) :
    e.index = i := by
  have := List.find?_some h
  simpa using this

/-- Reading some indexes one after the other. -/
theorem mapM_read {read : Nat → Option Log} {indexes : List Nat}
    (h : indexes.mapM read = some entries) :
    (∀ i ∈ indexes, (read i).isSome) ∧ ∀ e ∈ entries, ∃ i ∈ indexes, read i = some e := by
  induction indexes generalizing entries with
  | nil =>
    simp only [List.mapM_nil, Option.pure_def, Option.some.injEq] at h
    simp [← h]
  | cons i rest ih =>
    simp only [List.mapM_cons, Option.bind_eq_bind, Option.bind_eq_some_iff, Option.pure_def,
      Option.some.injEq] at h
    obtain ⟨entry, hget, entries', hrest, rfl⟩ := h
    obtain ⟨hsome, hfrom⟩ := ih hrest
    constructor
    · simpa [hget] using hsome
    · intro e he
      rcases List.mem_cons.mp he with rfl | he
      · exact ⟨i, by simp, hget⟩
      · obtain ⟨j, hj, hread⟩ := hfrom e he
        exact ⟨j, List.mem_cons_of_mem _ hj, hread⟩

theorem getLog_append (logs logs' : LogStore) (i : Nat) :
    getLog (logs ++ logs') i = (logs.getLog i).or (getLog logs' i) := by
  unfold getLog
  rw [List.find?_append]

theorem getLog_filter {p : Log → Bool}
    (h : ∀ e : Log, e.index = i → p e = true) : getLog (logs.filter p) i = logs.getLog i := by
  unfold getLog
  rw [List.find?_filter]
  congr 1
  funext e
  by_cases hi : e.index = i
  · simp [h e hi, hi]
  · simp [hi]

/-- Other indexes are not touched. -/
theorem getLog_deleteRange {lo hi i : Nat} (h : ¬ (lo ≤ i ∧ i ≤ hi)) :
    (logs.deleteRange lo hi).getLog i = logs.getLog i := by
  refine getLog_filter ?_
  intro e he
  simp only [Bool.not_eq_eq_eq_not, Bool.not_true, Bool.and_eq_false_iff, decide_eq_false_iff_not]
  omega

/-- The indexes in the range are gone. -/
theorem getLog_deleteRange_self {lo hi i : Nat} (h : lo ≤ i ∧ i ≤ hi) :
    (logs.deleteRange lo hi).getLog i = none := by
  apply List.find?_eq_none.mpr
  intro e he
  have hout := (List.mem_filter.mp he).2
  simp only [Bool.not_eq_eq_eq_not, Bool.not_true, Bool.and_eq_false_iff, decide_eq_false_iff_not] at hout
  simp only [beq_iff_eq]
  omega

theorem getLog_storeLog_ne {entry : Log} (h : entry.index ≠ i) :
    (logs.storeLog entry).getLog i = logs.getLog i := by
  unfold storeLog
  rw [getLog_append, getLog_filter]
  · have hnone : getLog [entry] i = none := by simp [getLog, h]
    rw [hnone, Option.or_none]
  · intro e he
    simp only [bne_iff_ne]
    omega

theorem getLog_storeLogs_ne
    (h : ∀ e ∈ entries, e.index ≠ i) : (logs.storeLogs entries).getLog i = logs.getLog i := by
  induction entries generalizing logs with
  | nil => rfl
  | cons entry rest ih =>
    have hrest : (storeLogs (logs.storeLog entry) rest).getLog i = (logs.storeLog entry).getLog i :=
      ih (fun e he => h e (List.mem_cons_of_mem _ he))
    exact hrest.trans (getLog_storeLog_ne (h entry (by simp)))

theorem getLog_storeLog_self (logs : LogStore) (entry : Log) :
    (logs.storeLog entry).getLog entry.index = some entry := by
  have hold : getLog (logs.filter (fun old => old.index != entry.index)) entry.index = none := by
    apply List.find?_eq_none.mpr
    intro e he
    simpa using (List.mem_filter.mp he).2
  unfold storeLog
  rw [getLog_append, hold]
  simp [getLog]

/-- What is stored can be read. -/
theorem getLog_storeLogs_mem
    (hnodup : (entries.map Log.index).Nodup) (he : e ∈ entries) :
    (logs.storeLogs entries).getLog e.index = some e := by
  induction entries generalizing logs with
  | nil => simp at he
  | cons entry rest ih =>
    rw [List.map_cons, List.nodup_cons] at hnodup
    rcases List.mem_cons.mp he with rfl | hrest
    · have hother : ∀ x ∈ rest, x.index ≠ e.index := by
        intro x hx heq
        exact hnodup.1 (heq ▸ List.mem_map_of_mem hx)
      have hkept : ((logs.storeLog e).storeLogs rest).getLog e.index =
          (logs.storeLog e).getLog e.index := getLog_storeLogs_ne hother
      exact hkept.trans (getLog_storeLog_self logs e)
    · have hstored : ((logs.storeLog entry).storeLogs rest).getLog e.index = some e :=
        ih hnodup.2 hrest
      exact hstored

theorem getLog_deleteRange_of_mem {lo hi i : Nat} (h : lo ≤ i ∧ i ≤ hi) :
    (logs.deleteRange lo hi).getLog i = none := by
  apply List.find?_eq_none.mpr
  intro e he
  have hkept := (List.mem_filter.mp he).2
  simp only [Bool.not_eq_eq_eq_not, Bool.not_true, Bool.and_eq_false_iff, decide_eq_false_iff_not]
    at hkept
  simp only [beq_iff_eq]
  omega

theorem foldl_max_le (logs : LogStore) (first n : Nat) :
    logs.foldl (fun last entry => max last entry.index) first ≤ n ↔
      first ≤ n ∧ ∀ e ∈ logs, e.index ≤ n := by
  induction logs generalizing first with
  | nil => simp
  | cons entry rest ih =>
    rw [List.foldl_cons, ih, Nat.max_le, List.forall_mem_cons, and_assoc]

theorem lastIndex_le {n : Nat} : logs.lastIndex ≤ n ↔ ∀ e ∈ logs, e.index ≤ n := by
  unfold lastIndex
  rw [foldl_max_le]
  simp

theorem index_le_lastIndex (h : e ∈ logs) : e.index ≤ logs.lastIndex :=
  lastIndex_le.mp (Nat.le_refl _) e h

theorem getLog_eq_none_of_lt (h : logs.lastIndex < i) :
    logs.getLog i = none := by
  cases hget : logs.getLog i with
  | none => rfl
  | some e =>
    have hle := index_le_lastIndex (mem_of_getLog hget)
    rw [index_of_getLog hget] at hle
    omega

theorem lastIndex_eq {n : Nat} (hle : ∀ e ∈ logs, e.index ≤ n)
    (he : e ∈ logs) (hn : e.index = n) : logs.lastIndex = n :=
  Nat.le_antisymm (lastIndex_le.mpr hle) (hn ▸ index_le_lastIndex he)

theorem exists_getLog_lastIndex (h : 0 < logs.lastIndex) :
    ∃ e, logs.getLog logs.lastIndex = some e := by
  cases hget : logs.getLog logs.lastIndex with
  | some e => exact ⟨e, rfl⟩
  | none =>
    -- otherwise every index would be below the last one
    exfalso
    have hle : logs.lastIndex ≤ logs.lastIndex - 1 := by
      rw [lastIndex_le]
      intro e he
      have hne := List.find?_eq_none.mp hget e he
      have hle := index_le_lastIndex he
      simp only [beq_iff_eq] at hne
      omega
    omega

/-- Entries above everything in the store, in the order of their indexes. -/
theorem lastIndex_storeLogs {last : Log}
    (hnodup : (entries.map Log.index).Nodup) (hlast : last ∈ entries)
    (hold : ∀ e ∈ logs, e.index ≤ last.index) (hnew : ∀ e ∈ entries, e.index ≤ last.index) :
    (logs.storeLogs entries).lastIndex = last.index ∧
      (logs.storeLogs entries).getLog last.index = some last := by
  have hget := @getLog_storeLogs_mem logs entries last hnodup hlast
  refine ⟨lastIndex_eq ?_ (mem_of_getLog hget) rfl, hget⟩
  intro e he
  rcases mem_of_mem_storeLogs he with he | he
  · exact hold e he
  · exact hnew e he

/-- An index that was in the store, or is stored, is in the store. -/
theorem exists_mem_storeLogs
    (h : e ∈ logs ∨ e ∈ entries) : ∃ e' ∈ logs.storeLogs entries, e'.index = e.index := by
  induction entries generalizing logs e with
  | nil => exact ⟨e, h.resolve_right List.not_mem_nil, rfl⟩
  | cons entry rest ih =>
    rw [List.mem_cons] at h
    by_cases hsame : e = entry ∨ e.index = entry.index
    · have hindex : entry.index = e.index := by
        rcases hsame with rfl | hsame
        · rfl
        · exact hsame.symm
      obtain ⟨e', he', heq⟩ := @ih (logs.storeLog entry) entry (.inl (by simp [storeLog]))
      exact ⟨e', he', heq.trans hindex⟩
    · rw [not_or] at hsame
      refine ih ?_
      rcases h with h | h | h
      · left
        simp [storeLog, h, hsame.2]
      · exact absurd h hsame.1
      · exact .inr h

theorem index_le_storeLogs (h : e ∈ entries) :
    e.index ≤ (logs.storeLogs entries).lastIndex := by
  obtain ⟨e', he', heq⟩ := @exists_mem_storeLogs logs entries e (.inr h)
  exact heq ▸ index_le_lastIndex he'

theorem lastIndex_le_storeLogs (logs : LogStore) (entries : List Log) :
    logs.lastIndex ≤ (logs.storeLogs entries).lastIndex := by
  rw [lastIndex_le]
  intro e he
  obtain ⟨e', he', heq⟩ := @exists_mem_storeLogs logs entries e (.inl he)
  exact heq ▸ index_le_lastIndex he'

theorem mem_deleteRange {lo hi : Nat} :
    e ∈ logs.deleteRange lo hi ↔ e ∈ logs ∧ ¬ (lo ≤ e.index ∧ e.index ≤ hi) := by
  unfold deleteRange
  rw [List.mem_filter]
  simp only [Bool.not_eq_eq_eq_not, Bool.not_true, Bool.and_eq_false_iff, decide_eq_false_iff_not]
  exact and_congr_right fun _ => by omega

theorem lastIndex_deleteRange {lo hi : Nat} (h : hi < logs.lastIndex) :
    (logs.deleteRange lo hi).lastIndex = logs.lastIndex := by
  obtain ⟨e, he⟩ := exists_getLog_lastIndex (Nat.zero_lt_of_lt h)
  have hindex := index_of_getLog he
  refine lastIndex_eq ?_ (e := e) ?_ ?_
  · exact fun e' he' => index_le_lastIndex (mem_of_mem_deleteRange he')
  · exact mem_deleteRange.mpr ⟨mem_of_getLog he, by omega⟩
  · exact hindex

theorem foldl_min_le {first : Nat} :
    logs.foldl (fun first entry => min first entry.index) first ≤ first ∧
      ∀ e ∈ logs, logs.foldl (fun first entry => min first entry.index) first ≤ e.index := by
  induction logs generalizing first with
  | nil => simp
  | cons entry rest ih =>
    obtain ⟨hfirst, hrest⟩ := @ih (min first entry.index)
    rw [List.foldl_cons]
    refine ⟨by omega, ?_⟩
    intro e he
    rcases List.mem_cons.mp he with rfl | he
    · omega
    · exact hrest e he

theorem firstIndex_le (h : e ∈ logs) : logs.firstIndex ≤ e.index := by
  cases logs with
  | nil => simp at h
  | cons entry rest =>
    rcases List.mem_cons.mp h with rfl | h
    · exact foldl_min_le.1
    · exact foldl_min_le.2 e h

/-- Deleting from the first entry to the last leaves nothing. -/
theorem deleteRange_all {hi : Nat} (h : logs.lastIndex ≤ hi) :
    logs.deleteRange logs.firstIndex hi = [] := by
  apply List.eq_nil_iff_forall_not_mem.mpr
  intro e he
  obtain ⟨hmem, hout⟩ := mem_deleteRange.mp he
  exact hout ⟨firstIndex_le hmem, Nat.le_trans (index_le_lastIndex hmem) h⟩

/-- The entries stand in the order of their indexes, which start at 1. -/
def Dense (logs : LogStore) : Prop := ∀ i e, logs[i]? = some e → e.index = i + 1

theorem Dense.of_isPrefix {logs logs' : LogStore} (h : Dense logs) (hp : logs' <+: logs) :
    Dense logs' := by
  intro i e he
  refine h i e ?_
  have hlt := (List.getElem?_eq_some_iff.mp he).1
  rw [List.prefix_iff_getElem?.mp hp i hlt, ← he, List.getElem?_eq_getElem hlt]

theorem Dense.index_le (h : Dense logs) (he : e ∈ logs) :
    1 ≤ e.index ∧ e.index ≤ logs.length := by
  obtain ⟨i, hi⟩ := List.getElem?_of_mem he
  have hlt := (List.getElem?_eq_some_iff.mp hi).1
  have := h i e hi
  omega

theorem Dense.getLog (h : Dense logs) (hi : 1 ≤ i) :
    logs.getLog i = logs[i - 1]? := by
  cases hget : logs[i - 1]? with
  | none =>
    unfold LogStore.getLog
    rw [List.find?_eq_none]
    intro e he
    have := h.index_le he
    have := List.getElem?_eq_none_iff.mp hget
    simp only [beq_iff_eq]
    omega
  | some e =>
    cases hfound : logs.getLog i with
    | none =>
      have hnone := List.find?_eq_none.mp hfound e (List.mem_of_getElem? hget)
      have := h _ e hget
      simp only [beq_iff_eq] at hnone
      omega
    | some e' =>
      obtain ⟨j, hj⟩ := List.getElem?_of_mem (mem_of_getLog hfound)
      have hindex := h j e' hj
      rw [index_of_getLog hfound] at hindex
      rw [← hj, ← hget]
      congr 1
      omega

theorem Dense.getLog_zero (h : Dense logs) : logs.getLog 0 = none := by
  unfold LogStore.getLog
  rw [List.find?_eq_none]
  intro e he
  have := h.index_le he
  simp only [beq_iff_eq]
  omega

theorem Dense.lastIndex (h : Dense logs) : logs.lastIndex = logs.length := by
  unfold LogStore.lastIndex
  induction logs using List.reverseRecOn with
  | nil => rfl
  | append_singleton logs e ih =>
    rw [List.foldl_append, ih (h.of_isPrefix (List.prefix_append _ _))]
    have hindex : e.index = logs.length + 1 := h logs.length e (by simp)
    simp only [List.foldl_cons, List.foldl_nil, List.length_append, List.length_singleton]
    omega

theorem Dense.storeLog (h : Dense (logs ++ [e])) :
    logs.storeLog e = logs ++ [e] := by
  unfold LogStore.storeLog
  congr 1
  rw [List.filter_eq_self]
  intro old hold
  have hle := (h.of_isPrefix (List.prefix_append _ _)).index_le hold
  have hindex : e.index = logs.length + 1 := h logs.length e (by simp)
  simp only [bne_iff_ne, ne_eq]
  omega

/-- Entries that continue the log are appended. -/
theorem Dense.storeLogs (h : Dense (logs ++ entries)) :
    logs.storeLogs entries = logs ++ entries := by
  induction entries generalizing logs with
  | nil => simp [LogStore.storeLogs]
  | cons e rest ih =>
    have hsplit : logs ++ e :: rest = (logs ++ [e]) ++ rest := by simp
    rw [hsplit] at h ⊢
    have hone : logs.storeLog e = logs ++ [e] := (h.of_isPrefix (List.prefix_append _ _)).storeLog
    rw [← ih h, ← hone]
    rfl

/-- Deleting up to the last index cuts the log. -/
theorem Dense.deleteRange (h : Dense logs) (hi : 1 ≤ i) :
    logs.deleteRange i logs.length = logs.take (i - 1) := by
  have htake : (logs.take (i - 1)).filter (fun entry =>
      !(decide (i ≤ entry.index) && decide (entry.index ≤ logs.length))) = logs.take (i - 1) := by
    rw [List.filter_eq_self]
    intro e he
    have hle := (h.of_isPrefix (List.take_prefix _ _)).index_le he
    rw [List.length_take] at hle
    simp only [Bool.not_eq_eq_eq_not, Bool.not_true, Bool.and_eq_false_iff, decide_eq_false_iff_not]
    omega
  have hdrop : (logs.drop (i - 1)).filter (fun entry =>
      !(decide (i ≤ entry.index) && decide (entry.index ≤ logs.length))) = [] := by
    rw [List.filter_eq_nil_iff]
    intro e he
    obtain ⟨j, hj⟩ := List.getElem?_of_mem he
    rw [List.getElem?_drop] at hj
    have hindex := h _ e hj
    have hle := h.index_le (List.mem_of_getElem? hj)
    simp only [Bool.not_eq_true', Bool.and_eq_false_iff, decide_eq_false_iff_not]
    omega
  calc logs.deleteRange i logs.length
      = (logs.take (i - 1) ++ logs.drop (i - 1)).filter (fun entry =>
          !(decide (i ≤ entry.index) && decide (entry.index ≤ logs.length))) := by
        rw [List.take_append_drop]
        rfl
    _ = logs.take (i - 1) := by rw [List.filter_append, htake, hdrop, List.append_nil]

end LogStore

end PerfRaft
