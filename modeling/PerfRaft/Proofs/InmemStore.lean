import PerfRaft.InmemStore
import PerfRaft.Proofs.LogStore

namespace PerfRaft

namespace LogStore

variable {held : LogStore} {e : Log} {n : Nat}

theorem mem_indexes : n ∈ held.indexes ↔ (held.getLog n).isSome = true := by
  unfold getLog
  rw [List.find?_isSome]
  simp only [beq_iff_eq]
  rfl

theorem indexes_eq_empty : held.indexes = ∅ ↔ held = [] := by
  constructor
  · intro h
    rw [List.eq_nil_iff_forall_not_mem]
    intro e he
    exact Set.notMem_empty e.index (h ▸ ⟨e, he, rfl⟩)
  · rintro rfl
    apply Set.eq_empty_of_forall_notMem
    rintro n ⟨e, he, -⟩
    simp at he

/-- An entry above everything that is held goes to the end. -/
theorem storeLog_above (h : ∀ old ∈ held, old.index < e.index) : held.storeLog e = held ++ [e] := by
  unfold storeLog
  rw [List.filter_eq_self.mpr]
  intro old hold
  simpa using Nat.ne_of_lt (h old hold)

theorem indexes_append (held : LogStore) (e : Log) :
    indexes (held ++ [e]) = insert e.index held.indexes := by
  ext n
  constructor
  · rintro ⟨old, hold, rfl⟩
    rcases List.mem_append.mp hold with hold | hold
    · exact .inr ⟨old, hold, rfl⟩
    · exact .inl (by rw [List.mem_singleton.mp hold])
  · rintro (rfl | ⟨old, hold, rfl⟩)
    · exact ⟨e, by simp, rfl⟩
    · exact ⟨old, List.mem_append_left _ hold, rfl⟩

theorem indexes_deleteRange (held : LogStore) (lo hi : Nat) :
    (held.deleteRange lo hi).indexes = held.indexes \ Set.Icc lo hi := by
  ext n
  constructor
  · rintro ⟨e, he, rfl⟩
    obtain ⟨hmem, hout⟩ := mem_deleteRange.mp he
    exact ⟨⟨e, hmem, rfl⟩, hout⟩
  · rintro ⟨⟨e, he, rfl⟩, hout⟩
    exact ⟨e, mem_deleteRange.mpr ⟨he, hout⟩, rfl⟩

theorem foldl_min_mem (logs : LogStore) (first : Nat) :
    logs.foldl (fun first entry => min first entry.index) first = first ∨
      logs.foldl (fun first entry => min first entry.index) first ∈ logs.indexes := by
  induction logs generalizing first with
  | nil => exact .inl rfl
  | cons entry rest ih =>
    rw [List.foldl_cons]
    rcases ih (min first entry.index) with hfirst | ⟨e, he, hindex⟩
    · rw [hfirst]
      rcases Nat.le_total first entry.index with hle | hle
      · exact .inl (Nat.min_eq_left hle)
      · exact .inr ⟨entry, by simp, (Nat.min_eq_right hle).symm⟩
    · exact .inr ⟨e, List.mem_cons_of_mem _ he, hindex⟩

theorem firstIndex_mem (h : held ≠ []) : held.firstIndex ∈ held.indexes := by
  cases held with
  | nil => exact absurd rfl h
  | cons entry rest =>
    rcases foldl_min_mem rest entry.index with hfirst | ⟨e, he, hindex⟩
    · exact ⟨entry, by simp, hfirst.symm⟩
    · exact ⟨e, List.mem_cons_of_mem _ he, hindex⟩

theorem lastIndex_mem (h : held ≠ []) : held.lastIndex ∈ held.indexes := by
  by_cases hpos : 0 < held.lastIndex
  · obtain ⟨e, he⟩ := exists_getLog_lastIndex hpos
    exact ⟨e, mem_of_getLog he, index_of_getLog he⟩
  · obtain ⟨e, he⟩ := List.exists_mem_of_ne_nil _ h
    have := index_le_lastIndex he
    exact ⟨e, he, by omega⟩

/-- The first and the last index of a log store are its watermarks. -/
theorem watermarks (held : LogStore) : Lib.Watermarks held.indexes held.firstIndex held.lastIndex := by
  by_cases hnil : held = []
  · rw [hnil]
    exact .inl ⟨indexes_eq_empty.mpr rfl, rfl, rfl⟩
  · refine .inr ⟨⟨firstIndex_mem hnil, ?_⟩, ⟨lastIndex_mem hnil, ?_⟩⟩
    · rintro n ⟨e, he, rfl⟩
      exact firstIndex_le he
    · rintro n ⟨e, he, rfl⟩
      exact index_le_lastIndex he

end LogStore

namespace InmemStore

variable {i : InmemStore} {held : LogStore} {l : Log} {min max : UInt64}

/-- The store has the entries of `held`, and its watermarks are those of their indexes. -/
structure Holds (i : InmemStore) (held : LogStore) : Prop where
  getLog : ∀ index : UInt64, i.getLog index = held.getLog index.toNat
  pos : ∀ e ∈ held, 1 ≤ e.index
  marks : Lib.Watermarks held.indexes i.lowIndex.toNat i.highIndex.toNat

theorem holds_new : Holds {} [] where
  getLog := fun _ => rfl
  pos := by simp
  marks := by
    rw [LogStore.indexes_eq_empty.mpr rfl]
    exact .empty

theorem Holds.zero_notMem (h : Holds i held) : 0 ∉ held.indexes := by
  rintro ⟨e, he, hindex⟩
  have := h.pos e he
  omega

theorem toNat_ofNat {n : Nat} (h : n < UInt64.size) : (UInt64.ofNat n).toNat = n :=
  UInt64.toNat_ofNat_of_lt' h

theorem Holds.put (h : Holds i held) (hpos : 1 ≤ l.index) (hlt : l.index < UInt64.size)
    (habove : ∀ e ∈ held, e.index < l.index) : Holds (i.put l) (held.storeLog l) := by
  have hindex := toNat_ofNat hlt
  constructor
  case getLog =>
    intro index
    show Function.update i.logs _ _ index = _
    by_cases heq : index = UInt64.ofNat l.index
    · subst heq
      rw [Function.update_self, hindex, LogStore.getLog_storeLog_self]
    · have hne : l.index ≠ index.toNat := by
        rintro hsame
        exact heq (UInt64.toNat_inj.mp (hindex.trans hsame).symm)
      rw [Function.update_of_ne heq, LogStore.getLog_storeLog_ne hne]
      exact h.getLog index
  case pos =>
    rw [LogStore.storeLog_above habove]
    intro e he
    rcases List.mem_append.mp he with he | he
    · exact h.pos e he
    · rw [List.mem_singleton.mp he]
      exact hpos
  case marks =>
    rw [LogStore.storeLog_above habove, LogStore.indexes_append]
    have hmarks := h.marks.insert h.zero_notMem (n := l.index) (by
      rintro m ⟨e, he, rfl⟩
      exact habove e he) hpos
    have hlow : (i.put l).lowIndex.toNat =
        if i.lowIndex.toNat = 0 then l.index else i.lowIndex.toNat := by
      unfold InmemStore.put
      dsimp only
      by_cases hzero : i.lowIndex = 0
      · rw [if_pos hzero, if_pos (by rw [hzero]; rfl), hindex]
      · have hne : i.lowIndex.toNat ≠ 0 := fun heq => hzero (UInt64.toNat_inj.mp heq)
        rw [if_neg hzero, if_neg hne]
    have hhigh : (i.put l).highIndex.toNat = Nat.max i.highIndex.toNat l.index := by
      unfold InmemStore.put
      dsimp only
      by_cases hraise : i.highIndex < UInt64.ofNat l.index
      · rw [if_pos hraise, hindex]
        rw [UInt64.lt_iff_toNat_lt, hindex] at hraise
        exact (Nat.max_eq_right (Nat.le_of_lt hraise)).symm
      · rw [if_neg hraise]
        rw [UInt64.lt_iff_toNat_lt, hindex] at hraise
        exact (Nat.max_eq_left (Nat.not_lt.mp hraise)).symm
    rw [hlow, hhigh]
    exact hmarks

theorem Holds.storeLogs (h : Holds i held) {logs : List Log} (hlogs : held.Appends logs) :
    Holds (i.storeLogs logs) (held.storeLogs logs) := by
  induction logs generalizing i held with
  | nil => exact h
  | cons l rest ih =>
    obtain ⟨hsorted, hall⟩ := hlogs
    rw [List.pairwise_cons] at hsorted
    obtain ⟨hpos, hlt, habove⟩ := hall l (by simp)
    refine ih (h.put hpos hlt habove) ⟨hsorted.2, ?_⟩
    intro l' hl'
    obtain ⟨hpos', hlt', habove'⟩ := hall l' (List.mem_cons_of_mem _ hl')
    refine ⟨hpos', hlt', ?_⟩
    rw [LogStore.storeLog_above habove]
    intro e he
    rcases List.mem_append.mp he with he | he
    · exact habove' e he
    · rw [List.mem_singleton.mp he]
      exact hsorted.1 l' hl'

theorem toNat_succ {j : UInt64} (h : j.toNat < UInt64.size - 1) : (j + 1).toNat = j.toNat + 1 := by
  rw [UInt64.toNat_add, UInt64.toNat_one]
  exact Nat.mod_eq_of_lt (Nat.add_lt_of_lt_sub h)

/-- The loop of `DeleteRange` when `j` does not overflow. -/
theorem deleteFrom_apply (logs : UInt64 → Option Log) (turns : Nat) (j k : UInt64)
    (h : j.toNat + turns < UInt64.size) :
    deleteFrom logs turns j k =
      if j.toNat ≤ k.toNat ∧ k.toNat < j.toNat + turns then none else logs k := by
  induction turns generalizing logs j with
  | zero =>
    rw [if_neg (by omega)]
    rfl
  | succ turns ih =>
    have hnext : (j + 1).toNat = j.toNat + 1 := toNat_succ (by omega)
    unfold deleteFrom
    rw [ih _ _ (by omega), hnext]
    by_cases hk : k = j
    · subst hk
      rw [if_neg (by omega), if_pos (by omega), Function.update_self]
    · have hne : k.toNat ≠ j.toNat := fun heq => hk (UInt64.toNat_inj.mp heq)
      rw [Function.update_of_ne hk]
      by_cases hrange : j.toNat + 1 ≤ k.toNat ∧ k.toNat < j.toNat + 1 + turns
      · rw [if_pos hrange, if_pos (by omega)]
      · rw [if_neg hrange, if_neg (by omega)]

theorem logs_reset (i : InmemStore) : i.reset.logs = i.logs := by
  unfold reset
  split <;> rfl

theorem reset_toNat (i : InmemStore) :
    i.reset.lowIndex.toNat =
        (if i.highIndex.toNat < i.lowIndex.toNat then 0 else i.lowIndex.toNat) ∧
      i.reset.highIndex.toNat =
        (if i.highIndex.toNat < i.lowIndex.toNat then 0 else i.highIndex.toNat) := by
  unfold reset
  simp only [← UInt64.lt_iff_toNat_lt]
  split <;> exact ⟨rfl, rfl⟩

theorem Holds.deleteRange (h : Holds i held) (hle : min.toNat ≤ max.toNat)
    (hmax : max.toNat < UInt64.size - 1)
    (hsnug : Lib.Snug held.indexes i.lowIndex.toNat i.highIndex.toNat min.toNat max.toNat) :
    Holds (i.deleteRange min max) (held.deleteRange min.toNat max.toNat) := by
  constructor
  case getLog =>
    intro index
    show (i.deleteRange min max).logs index = _
    unfold InmemStore.deleteRange
    rw [logs_reset]
    dsimp only
    rw [deleteFrom_apply _ _ _ _ (by omega)]
    by_cases hrange : min.toNat ≤ index.toNat ∧ index.toNat ≤ max.toNat
    · rw [if_pos (by omega), LogStore.getLog_deleteRange_of_mem hrange]
    · rw [if_neg (by omega), LogStore.getLog_deleteRange hrange]
      exact h.getLog index
  case pos => exact fun e he => h.pos e (LogStore.mem_of_mem_deleteRange he)
  case marks =>
    rw [LogStore.indexes_deleteRange]
    have hlow : (if min ≤ i.lowIndex then max + 1 else i.lowIndex).toNat =
        if min.toNat ≤ i.lowIndex.toNat then max.toNat + 1 else i.lowIndex.toNat := by
      simp only [UInt64.le_iff_toNat_le]
      split
      · exact toNat_succ hmax
      · rfl
    have hhigh : (if i.highIndex ≤ max then min - 1 else i.highIndex).toNat =
        if i.highIndex.toNat ≤ max.toNat then min.toNat - 1 else i.highIndex.toNat := by
      simp only [UInt64.le_iff_toNat_le]
      split
      · rename_i hback
        have hpos := hsnug.pos h.zero_notMem hback
        exact UInt64.toNat_sub_of_le _ _ (UInt64.le_iff_toNat_le.mpr hpos)
      · rfl
    have hmarks := h.marks.diff h.zero_notMem hle hsnug hlow hhigh
    unfold InmemStore.deleteRange
    rw [(reset_toNat _).1, (reset_toNat _).2]
    exact hmarks

end InmemStore

namespace InmemRun

variable {w w' : InmemRun} {c : LogStoreCall}

/-- The condition on a range, in terms of the indexes that are held. -/
theorem snug_of_leavesEdges {min max : Nat} (hedges : w.LeavesEdges (.deleteRange min max)) :
    Lib.Snug w.held.indexes w.held.firstIndex w.held.lastIndex min max where
  front := by
    intro hmin
    rw [LogStore.mem_indexes]
    exact hedges.1 hmin
  back := by
    intro hmax
    rw [LogStore.mem_indexes]
    exact hedges.2 hmax

theorem holds_step (h : w.store.Holds w.held) (hallowed : w.Allowed c) (hedges : w.LeavesEdges c)
    (hs : w.step c = some w') : w'.store.Holds w'.held := by
  cases hs
  cases c with
  | storeLog log => exact h.storeLogs hallowed
  | storeLogs logs => exact h.storeLogs hallowed
  | getLog index => exact h
  | deleteRange min max =>
    obtain ⟨hle, hmax⟩ := hallowed
    obtain ⟨hlow, hhigh⟩ := (LogStore.watermarks w.held).unique h.marks
    have hsnug := snug_of_leavesEdges hedges
    rw [hlow, hhigh] at hsnug
    have hmin' := InmemStore.toNat_ofNat (n := min) (by omega)
    have hmax' := InmemStore.toNat_ofNat (n := max) (by omega)
    have hdeleted : (w.store.deleteRange (UInt64.ofNat min) (UInt64.ofNat max)).Holds
        (w.held.deleteRange (UInt64.ofNat min).toNat (UInt64.ofNat max).toNat) := by
      refine h.deleteRange ?_ ?_ ?_
      · rw [hmin', hmax']
        exact hle
      · rw [hmax']
        exact hmax
      · rw [hmin', hmax']
        exact hsnug
    rw [hmin', hmax'] at hdeleted
    exact hdeleted

/-- An `InmemStore` is a log store as long as the edges of what is left after a DeleteRange
call are next to the deleted range: it finds exactly the entries that have been stored and
not deleted, and its first and last index are their least and greatest index. -/
theorem inmemStore_holds
    (h : system.Reachable (fun w c => w.Allowed c ∧ w.LeavesEdges c) w) :
    (∀ index : UInt64, w.store.getLog index = w.held.getLog index.toNat) ∧
      Lib.Watermarks w.held.indexes w.store.firstIndex.toNat w.store.lastIndex.toNat := by
  have hholds : w.store.Holds w.held := by
    refine Lib.System.Reachable.invariant (P := fun w => w.store.Holds w.held) ?_ ?_ h
    · rintro w rfl
      exact InmemStore.holds_new
    · intro w c w' hw hok hstep
      exact holds_step hw hok.1 hok.2 hstep
  exact ⟨hholds.getLog, hholds.marks⟩

/-- A command at an index. -/
def commandAt (index : Nat) : Log := { index := index, term := 1, type := .logCommand }

/-- The entries 1 to 3, 7 and 8, of which the first two and the last are deleted. -/
theorem inmemStore_holds_gap :
    ∃ w, system.Reachable (fun w c => w.Allowed c ∧ w.LeavesEdges c) w ∧
      w.held = [commandAt 3, commandAt 7] ∧ w.store.firstIndex = 3 ∧ w.store.lastIndex = 7 ∧
      (∀ index : UInt64, w.store.getLog index = w.held.getLog index.toNat) ∧
      Lib.Watermarks w.held.indexes w.store.firstIndex.toNat w.store.lastIndex.toNat := by
  obtain ⟨w, hreach, hheld, hfirst, hlast⟩ : ∃ w,
      system.Reachable (fun w c => w.Allowed c ∧ w.LeavesEdges c) w ∧
      w.held = [commandAt 3, commandAt 7] ∧ w.store.firstIndex = 3 ∧ w.store.lastIndex = 7 :=
    Lib.System.exists_reachable rfl
      ([.storeLogs [commandAt 1, commandAt 2, commandAt 3], .storeLogs [commandAt 7, commandAt 8],
        .deleteRange 1 2, .deleteRange 8 9].map (fun c _ => c)) (by decide +kernel)
  exact ⟨w, hreach, hheld, hfirst, hlast, inmemStore_holds hreach⟩

/-- DeleteRange from the first index to the last of an empty store, which is 0 for both,
leaves the greatest `uint64` as the last index. Storing an entry does not mend it. -/
theorem empty_range_spoils :
    ∃ w w' : InmemRun, system.Reachable (fun w c => w.Allowed c) w ∧ w.held = [] ∧
      w.store.firstIndex = 1 ∧ w.store.lastIndex.toNat = UInt64.size - 1 ∧
      w.Allowed (.storeLog (commandAt 5)) ∧ w.step (.storeLog (commandAt 5)) = some w' ∧
      w'.held = [commandAt 5] ∧ w'.store.firstIndex = 1 ∧ w'.store.lastIndex.toNat = UInt64.size - 1 := by
  have hstart : (({} : InmemRun).Allowed (.deleteRange 0 0)) := by decide
  refine ⟨_, _, ⟨{}, rfl, .tail .refl hstart rfl⟩, rfl, ?_, ?_, ?_, rfl, rfl, ?_, ?_⟩
  · decide +kernel
  · decide +kernel
  · decide +kernel
  · decide +kernel
  · decide +kernel

end InmemRun

end PerfRaft
