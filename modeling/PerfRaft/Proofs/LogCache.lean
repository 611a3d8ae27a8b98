import PerfRaft.LogCache
import PerfRaft.Proofs.LogStore

namespace PerfRaft

namespace LogCache

variable {S : Type} {b : LogBackend S}

/-- The cache stands for the store `s`: it is in that state itself, and its ring has
nothing that the store does not have. -/
structure Agrees (b : LogBackend S) (c : LogCache S) (s : S) : Prop where
  store : c.store = s
  cache : c.cache.Coherent Log.index (b.getLog s)

variable {c : LogCache S}

theorem Agrees.getLog {s : S} (h : Agrees b c s) (idx : Nat) :
    c.getLog b idx = b.getLog s idx := by
  simp only [LogCache.getLog]
  split
  · rename_i cached hl
    exact (h.cache.lookup hl).symm
  · rw [h.store]

theorem Agrees.storeLogs (hb : b.IsMap) {s : S} (h : Agrees b c s)
    (logs : List Log) : Agrees b (c.storeLogs b logs).1 (b.storeLogs s logs).1 := by
  have hs := h.store
  subst hs
  simp only [LogCache.storeLogs]
  split
  · rename_i store err he
    have hfail := hb.failed c.store logs err (by rw [he])
    refine ⟨(congrArg Prod.fst he).symm, ?_⟩
    rw [hfail]
    exact h.cache
  · rename_i store he
    have hok := hb.stored c.store logs (by rw [he])
    refine ⟨(congrArg Prod.fst he).symm, ?_⟩
    rw [hok]
    exact h.cache.putAll logs

theorem Agrees.deleteRange {s : S} (h : Agrees b c s) (min max : Nat) :
    Agrees b (c.deleteRange b min max).1 (b.deleteRange s min max).1 := by
  refine ⟨?_, Lib.Slots.coherent_clear _ _⟩
  rw [← h.store]
  rfl

theorem Agrees.call (hb : b.IsMap) {s : S} (h : Agrees b c s)
    (request : LogStoreCall) : Agrees b (c.call b request) (b.call s request) := by
  cases request with
  | storeLog log =>
    simp only [LogBackend.call, hb.single]
    exact h.storeLogs hb [log]
  | storeLogs logs => exact h.storeLogs hb logs
  | deleteRange min max => exact h.deleteRange min max
  | getLog index => exact h

theorem Agrees.calls (hb : b.IsMap) {s : S} (h : Agrees b c s)
    (requests : List LogStoreCall) : Agrees b (c.calls b requests) (b.calls s requests) := by
  induction requests generalizing c s with
  | nil => exact h
  | cons request rest ih => exact ih (h.call hb request)

theorem new_of_pos {capacity : Int} (h : 1 ≤ capacity) (s : S) :
    ∃ c, newLogCache capacity s = .ok c :=
  ⟨_, dif_neg (by omega)⟩

theorem agrees_new {capacity : Int} {s : S} (h : newLogCache capacity s = .ok c) :
    Agrees b c s := by
  simp only [newLogCache] at h
  split at h
  · cases h
  · cases h
    exact ⟨rfl, Lib.Slots.coherent_empty _ (by omega)⟩

end LogCache

/-- A cache of any capacity over any store that behaves as a map answers every read as
the store alone would, after whatever calls, successful or not. -/
theorem logCache_transparent {S : Type} {b : LogBackend S} (hb : b.IsMap) (capacity : Int)
    (hc : 1 ≤ capacity) (s : S) :
    ∃ c, newLogCache capacity s = .ok c ∧ ∀ requests : List LogStoreCall,
      (∀ idx, (c.calls b requests).getLog b idx = b.getLog (b.calls s requests) idx) ∧
      (c.calls b requests).firstIndex b = b.firstIndex (b.calls s requests) ∧
      (c.calls b requests).lastIndex b = b.lastIndex (b.calls s requests) := by
  obtain ⟨c, hnew⟩ := LogCache.new_of_pos hc s
  refine ⟨c, hnew, ?_⟩
  intro requests
  have h := (LogCache.agrees_new (b := b) hnew).calls hb requests
  exact ⟨h.getLog, congrArg b.firstIndex h.store, congrArg b.lastIndex h.store⟩

/-- The store of the model as an implementation, with the outcomes of its next writes;
a write fails once there are none left. -/
def scriptedStore : LogBackend (LogStore × List Bool) where
  getLog := fun s index => s.1.getLog index
  firstIndex := fun s => .ok s.1.firstIndex
  lastIndex := fun s => .ok s.1.lastIndex
  storeLog := fun s log =>
    if s.2.headD false then ((s.1.storeLog log, s.2.tail), .ok ())
    else ((s.1, s.2.tail), .error "some error")
  storeLogs := fun s logs =>
    if s.2.headD false then ((s.1.storeLogs logs, s.2.tail), .ok ())
    else ((s.1, s.2.tail), .error "some error")
  deleteRange := fun s min max =>
    if s.2.headD false then ((s.1.deleteRange min max, s.2.tail), .ok ())
    else ((s.1, s.2.tail), .error "some error")

theorem getLog_storeLog_update (logs : LogStore) (log : Log) :
    (logs.storeLog log).getLog = Function.update logs.getLog log.index (some log) := by
  funext i
  by_cases hi : i = log.index
  · subst hi
    rw [LogStore.getLog_storeLog_self, Function.update_self]
  · rw [LogStore.getLog_storeLog_ne (Ne.symm hi), Function.update_of_ne hi]

theorem getLog_storeLogs_overwrite (logs : LogStore) (entries : List Log) :
    (logs.storeLogs entries).getLog = Lib.Slots.overwrite Log.index logs.getLog entries := by
  induction entries generalizing logs with
  | nil => rfl
  | cons entry rest ih =>
    simp only [LogStore.storeLogs, List.foldl_cons, Lib.Slots.overwrite]
    rw [← getLog_storeLog_update]
    exact ih (logs.storeLog entry)

theorem scriptedStore_isMap : scriptedStore.IsMap where
  stored := by
    intro s logs h
    simp only [scriptedStore] at h ⊢
    split at h
    · rename_i hok
      rw [if_pos hok]
      exact getLog_storeLogs_overwrite s.1 logs
    · cases h
  failed := by
    intro s logs err h
    simp only [scriptedStore] at h ⊢
    split at h
    · cases h
    · rename_i hok
      rw [if_neg hok]
  single := fun _ _ => rfl

/-- A ring of two slots over a store whose second write fails. -/
theorem logCache_transparent_scripted :
    ∃ c, newLogCache 2 (([], [true, false, true]) : LogStore × List Bool) = .ok c ∧
      (c.calls scriptedStore
        [.storeLogs [⟨1, 1, .logCommand, .bytes [], [], 0⟩, ⟨3, 1, .logNoop, .bytes [], [], 0⟩],
          .storeLog ⟨1, 2, .logNoop, .bytes [], [], 0⟩, .deleteRange 3 3]).getLog scriptedStore 1 =
        some ⟨1, 1, .logCommand, .bytes [], [], 0⟩ := by
  obtain ⟨c, hnew, h⟩ := logCache_transparent scriptedStore_isMap 2 (by decide)
    (([], [true, false, true]) : LogStore × List Bool)
  refine ⟨c, hnew, ?_⟩
  rw [(h _).1]
  decide

end PerfRaft
