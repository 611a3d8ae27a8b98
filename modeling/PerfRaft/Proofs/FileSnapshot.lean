import Mathlib.Data.List.Nodup
import Mathlib.Data.List.TakeWhile
import PerfRaft.FileSnapshot

namespace PerfRaft

theorem snapMetaLess_iff (a b : FileSnapshotMeta) :
    snapMetaLess a b = true ↔ a.term < b.term ∨
      (a.term = b.term ∧ (a.index < b.index ∨ (a.index = b.index ∧ a.id < b.id))) := by
  unfold snapMetaLess
  split
  · rename_i h
    simp [h]
  · rename_i h
    split
    · rename_i h'
      simp [not_not.mp h, h']
    · rename_i h'
      simp [not_not.mp h, not_not.mp h']

theorem notOlder_iff (a b : FileSnapshotMeta) : notOlder a b ↔ ¬ snapMetaLess a b = true := by
  simp [notOlder]

theorem id_trichotomy (a b : Bytes) : a < b ∨ a = b ∨ b < a := by
  by_cases h : a < b
  · exact .inl h
  · by_cases h' : b < a
    · exact .inr (.inr h')
    · exact .inr (.inl (List.le_antisymm (List.not_lt.mp h') (List.not_lt.mp h)))

/-- What is older than something is older than anything that is not older than it. -/
theorem snapMetaLess_cotrans {a c : FileSnapshotMeta} (h : snapMetaLess a c = true)
    (b : FileSnapshotMeta) : snapMetaLess a b = true ∨ snapMetaLess b c = true := by
  simp only [snapMetaLess_iff] at h ⊢
  rcases h with h | ⟨ht, h | ⟨hi, h⟩⟩
  · omega
  · omega
  · have hid : a.id < b.id ∨ b.id < c.id := by
      rcases id_trichotomy a.id b.id with hid | hid | hid
      · exact .inl hid
      · exact .inr (hid ▸ h)
      · exact .inr (List.lt_trans hid h)
    rcases Nat.lt_trichotomy a.term b.term with hab | hab | hab
    · exact .inl (.inl hab)
    · rcases Nat.lt_trichotomy a.index b.index with hix | hix | hix
      · exact .inl (.inr ⟨hab, .inl hix⟩)
      · exact hid.imp (fun hlt => .inr ⟨hab, .inr ⟨hix, hlt⟩⟩)
          (fun hlt => .inr ⟨hab.symm.trans ht, .inr ⟨hix.symm.trans hi, hlt⟩⟩)
      · exact .inr (.inr ⟨hab.symm.trans ht, .inl (hi ▸ hix)⟩)
    · exact .inr (.inl (ht ▸ hab))

theorem snapMetaLess_asymm {a b : FileSnapshotMeta} (h : snapMetaLess a b = true) :
    ¬ snapMetaLess b a = true := by
  simp only [snapMetaLess_iff] at h ⊢
  rcases h with h | ⟨ht, h | ⟨hi, h⟩⟩
  · omega
  · omega
  · rintro (hlt | ⟨-, hlt | ⟨-, hlt⟩⟩)
    · omega
    · omega
    · exact List.lt_asymm h hlt

instance : Std.Total notOlder where
  total a b := by
    simp only [notOlder_iff]
    by_cases h : snapMetaLess a b = true
    · exact .inr (snapMetaLess_asymm h)
    · exact .inl h

instance : IsTrans FileSnapshotMeta notOlder where
  trans a b c hab hbc := by
    simp only [notOlder_iff] at hab hbc ⊢
    intro h
    exact (snapMetaLess_cotrans h b).elim hab hbc

theorem id_eq_of_notOlder {a b : FileSnapshotMeta} (hab : notOlder a b) (hba : notOlder b a) :
    a.id = b.id := by
  simp only [notOlder_iff, snapMetaLess_iff, not_or, not_and] at hab hba
  have ht : a.term = b.term := by omega
  obtain ⟨hi, hlt⟩ := hab.2 ht
  obtain ⟨hi', hlt'⟩ := hba.2 ht.symm
  have hix : a.index = b.index := by omega
  rcases id_trichotomy a.id b.id with hid | hid | hid
  · exact absurd hid (hlt hix)
  · exact hid
  · exact absurd hid (hlt' hix.symm)

/-- A decimal number ends with a digit. -/
theorem decimal_getLast (n : Nat) : ∃ front d, decimal n = front ++ [d] ∧ d ≠ 112 := by
  have hdigit : ∀ d, d < 10 → (Nat.digitChar d).toUInt8 ≠ 112 := by decide
  by_cases h : n < 10
  · exact ⟨[], _, by rw [decimal, Nat.toDigits_of_lt_base h]; rfl, hdigit n h⟩
  · refine ⟨decimal (n / 10), _, ?_, hdigit (n % 10) (Nat.mod_lt _ (by decide))⟩
    rw [decimal, Nat.toDigits_of_base_le (by decide) (by omega), List.map_append]
    rfl

/-- No snapshot is named like a temporary one. -/
theorem hasSuffix_snapshotName (term index msec : Nat) :
    hasSuffix (snapshotName term index msec) tmpSuffix = false := by
  obtain ⟨front, d, hd, hne⟩ := decimal_getLast msec
  by_contra h
  rw [Bool.not_eq_false, hasSuffix, List.isSuffixOf_iff_suffix] at h
  obtain ⟨t, ht⟩ := h
  have hlast := congrArg List.getLast? ht
  rw [snapshotName, hd, ← List.append_assoc, List.getLast?_append, List.getLast?_append] at hlast
  simp [tmpSuffix] at hlast
  exact hne hlast.symm

theorem hasSuffix_append (s suffix : Bytes) : hasSuffix (s ++ suffix) suffix = true :=
  List.isSuffixOf_iff_suffix.mpr (List.suffix_append _ _)

theorem trimSuffix_append (s suffix : Bytes) : trimSuffix (s ++ suffix) suffix = s := by
  simp [trimSuffix, hasSuffix_append]

namespace FileSnapshotSink

def id (k : FileSnapshotSink) : Bytes := k.metadata.id

/-- The concatenation of the writes. -/
def contents (k : FileSnapshotSink) : Bytes := k.writes.flatten

/-- The directory of a sink that is still open. -/
def openDir (k : FileSnapshotSink) : Bytes × SnapshotDir := (k.dir, ⟨k.metadata, k.hashed⟩)

/-- The directory of a snapshot that is complete. -/
def finalDir (k : FileSnapshotSink) : Bytes × SnapshotDir := (k.id, ⟨k.metadata, k.contents⟩)

def notOlder (a b : FileSnapshotSink) : Prop := PerfRaft.notOlder a.metadata b.metadata

instance : DecidableRel notOlder :=
  fun a b => inferInstanceAs (Decidable (PerfRaft.notOlder a.metadata b.metadata))

instance : Std.Total notOlder where
  total a b := Std.Total.total (r := PerfRaft.notOlder) a.metadata b.metadata

instance : IsTrans FileSnapshotSink notOlder where
  trans a b c hab hbc := IsTrans.trans (r := PerfRaft.notOlder) a.metadata b.metadata c.metadata hab hbc

section

variable {k : FileSnapshotSink}

/-- What has been called after the sink was closed or cancelled does not count. -/
theorem called_ended (h : k.ended = true) (call : SinkCall) :
    (k.called call).ended = true ∧ (k.called call).completed = k.completed ∧
      (k.called call).contents = k.contents := by
  obtain ⟨first, hfirst, hends⟩ := List.any_eq_true.mp h
  have hfind : (k.calls ++ [call]).find? SinkCall.ends = k.calls.find? SinkCall.ends := by
    obtain ⟨c, hc⟩ : ∃ c, k.calls.find? SinkCall.ends = some c :=
      Option.isSome_iff_exists.mp (List.find?_isSome.mpr ⟨first, hfirst, hends⟩)
    rw [List.find?_append, hc]
    rfl
  have hwhile : (k.calls ++ [call]).takeWhile (fun c => !c.ends) =
      k.calls.takeWhile (fun c => !c.ends) := by
    rw [List.takeWhile_append, if_neg]
    intro hlen
    have hall := List.takeWhile_eq_self_iff.mp ((List.takeWhile_prefix _).eq_of_length hlen)
    simpa [hends] using hall first hfirst
  refine ⟨List.any_eq_true.mpr ⟨first, List.mem_append_left _ hfirst, hends⟩, ?_, ?_⟩
  · simp only [completed, called, hfind]
  · simp only [contents, writes, called, hwhile]

variable (h : k.ended = false)

include h

theorem not_ends {c : SinkCall} (hc : c ∈ k.calls) : c.ends = false := by
  simpa using List.any_eq_false.mp h c hc

theorem find?_ends : k.calls.find? SinkCall.ends = none := by
  rw [List.find?_eq_none]
  intro c hc
  simp [not_ends h hc]

theorem not_completed_of_not_ended : k.completed = false := by
  simp [completed, find?_ends h]

/-- The first call that ends the writes decides. -/
theorem called_open (call : SinkCall) :
    (k.called call).ended = call.ends ∧ (k.called call).completed = (call == .close) ∧
      (k.called call).contents = k.contents ++ call.written?.getD [] := by
  have hany : k.calls.any SinkCall.ends = false := h
  have hall : ∀ c ∈ k.calls, (!c.ends) = true := by
    intro c hc
    rw [not_ends h hc]
    rfl
  have hwhile : k.calls.takeWhile (fun c => !c.ends) = k.calls := List.takeWhile_eq_self_iff.mpr hall
  refine ⟨?_, ?_, ?_⟩
  · simp [ended, called, List.any_append, hany]
  · cases call <;> simp [completed, called, List.find?_append, find?_ends h, SinkCall.ends]
  · unfold contents writes called
    rw [List.takeWhile_append_of_pos hall, hwhile]
    cases call <;> simp [SinkCall.ends, SinkCall.written?]

end

/-- What holds of every sink by itself. -/
structure WellFormed (crc64 : Bytes → Bytes) (k : FileSnapshotSink) : Prop where
  name : ∃ term index msec, k.id = snapshotName term index msec
  version : k.metadata.version = 1
  dir : k.dir = k.id ++ tmpSuffix
  ended : k.ended = k.closed
  unfinished : k.closed = false → k.hashed ++ k.buffered = k.contents
  finished : k.completed = true →
    k.metadata.size = k.contents.length ∧ k.metadata.crc = crc64 k.contents

variable {crc64 : Bytes → Bytes} {k k' : FileSnapshotSink}

theorem WellFormed.not_completed (h : WellFormed crc64 k) (hc : k.closed = false) :
    k.completed = false :=
  not_completed_of_not_ended (h.ended.trans hc)

theorem WellFormed.not_tmp (h : WellFormed crc64 k) : hasSuffix k.id tmpSuffix = false := by
  obtain ⟨term, index, msec, he⟩ := h.name
  rw [he]
  exact hasSuffix_snapshotName term index msec

theorem WellFormed.dir_tmp (h : WellFormed crc64 k) : hasSuffix k.dir tmpSuffix = true := by
  rw [h.dir]
  exact hasSuffix_append _ _

theorem WellFormed.id_ne_dir (h : WellFormed crc64 k) (h' : WellFormed crc64 k') : k.id ≠ k'.dir := by
  intro he
  have := h.not_tmp
  rw [he, h'.dir_tmp] at this
  cases this

theorem WellFormed.dir_ne (h : WellFormed crc64 k) (h' : WellFormed crc64 k') (hne : k.id ≠ k'.id) :
    k.dir ≠ k'.dir := by
  rw [h.dir, h'.dir]
  intro he
  exact hne (List.append_cancel_right he)

end FileSnapshotSink

namespace FileSnapshotStore

open FileSnapshotSink

def opens (sinks : List FileSnapshotSink) : List FileSnapshotSink :=
  sinks.filter (fun k => !k.closed)

def finished (sinks : List FileSnapshotSink) : List FileSnapshotSink :=
  sinks.filter (fun k => k.completed)

/-- The directory of the store when it has given out these sinks. -/
def contents (retain : Nat) (sinks : List FileSnapshotSink) : List (Bytes × SnapshotDir) :=
  (opens sinks).map openDir ++ (Lib.top FileSnapshotSink.notOlder retain (finished sinks)).map finalDir

/-- The directory has what the open sinks have written and the newest of the complete
snapshots, and nothing else. -/
structure Holds (crc64 : Bytes → Bytes) (f : FileSnapshotStore) : Prop where
  ids : (f.sinks.map FileSnapshotSink.id).Nodup
  sinks : ∀ k ∈ f.sinks, WellFormed crc64 k
  dirs : f.dirs.Perm (contents f.retain f.sinks)

variable {crc64 : Bytes → Bytes}

theorem holds_new (retain : Nat) : Holds crc64 { retain := retain } where
  ids := List.nodup_nil
  sinks := by simp
  dirs := by simp [contents, opens, finished, Lib.top]

variable {k : FileSnapshotSink} {l : List FileSnapshotSink}

theorem mem_top {r : FileSnapshotSink → FileSnapshotSink → Prop} [DecidableRel r]
    {n : Nat} (h : k ∈ Lib.top r n l) : k ∈ l :=
  (List.perm_insertionSort r l).mem_iff.mp (List.mem_of_mem_take h)

variable {sinks : List FileSnapshotSink}

/-- Two sinks of which neither is older have the same ID. -/
theorem notOlder_antisymm (h : (sinks.map FileSnapshotSink.id).Nodup)
    (hl : ∀ k ∈ l, k ∈ sinks) :
    ∀ a ∈ l, ∀ b ∈ l, a.notOlder b → b.notOlder a → a = b := by
  intro a ha b hb hab hba
  exact List.inj_on_of_nodup_map h (hl a ha) (hl b hb) (id_eq_of_notOlder hab hba)

variable {retain : Nat}

theorem contents_of_perm {sinks sinks' : List FileSnapshotSink} (h : sinks.Perm sinks')
    (hids : (sinks.map FileSnapshotSink.id).Nodup) :
    (contents retain sinks).Perm (contents retain sinks') := by
  have htop : Lib.top FileSnapshotSink.notOlder retain (finished sinks) =
      Lib.top FileSnapshotSink.notOlder retain (finished sinks') := by
    apply Lib.top_of_perm retain (h.filter _)
    exact notOlder_antisymm hids (fun k hk => List.mem_of_mem_filter hk)
  rw [contents, contents, htop]
  exact ((h.filter _).map _).append_right _

/-- The sinks other than the one with the given ID. -/
def others (sinks : List FileSnapshotSink) (id : Bytes) : List FileSnapshotSink :=
  sinks.filter (fun k => decide (k.id ≠ id))

theorem perm_others (h : (sinks.map FileSnapshotSink.id).Nodup)
    (hk : k ∈ sinks) : sinks.Perm (k :: others sinks k.id) := by
  induction sinks with
  | nil => cases hk
  | cons a rest ih =>
    rw [List.map_cons, List.nodup_cons] at h
    rcases List.mem_cons.mp hk with rfl | hk'
    · have hrest : others (k :: rest) k.id = rest := by
        simp only [others, ne_eq, List.filter_cons, not_true_eq_false, decide_false, Bool.false_eq_true,
          if_false, List.filter_eq_self, decide_eq_true_eq]
        intro b hb he
        exact h.1 (he ▸ List.mem_map_of_mem hb)
      rw [hrest]
    · have hne : a.id ≠ k.id := by
        intro he
        exact h.1 (he ▸ List.mem_map_of_mem hk')
      have hothers : others (a :: rest) k.id = a :: others rest k.id := by
        simp [others, hne]
      rw [hothers]
      exact ((ih h.2 hk').cons a).trans (List.Perm.swap _ _ _)

theorem id_ne_of_mem_others {id : Bytes}
    (h : k ∈ others sinks id) : k.id ≠ id :=
  of_decide_eq_true (List.mem_filter.mp h).2

/-- A sink is replaced by what has become of it. -/
theorem perm_replaced (h : (sinks.map FileSnapshotSink.id).Nodup)
    {k n : FileSnapshotSink} (hk : k ∈ sinks) :
    (sinks.map (fun old => if old.metadata.id = k.id then n else old)).Perm
      (n :: others sinks k.id) := by
  have hperm := (perm_others h hk).map (fun old => if old.metadata.id = k.id then n else old)
  have hrest : (others sinks k.id).map (fun old => if old.metadata.id = k.id then n else old) =
      others sinks k.id := by
    conv_rhs => rw [← List.map_id (others sinks k.id)]
    apply List.map_congr_left
    intro a ha
    exact if_neg (id_ne_of_mem_others ha)
  rw [List.map_cons, hrest] at hperm
  have hself : (if k.metadata.id = k.id then n else k) = n := if_pos rfl
  rw [hself] at hperm
  exact hperm

variable {f : FileSnapshotStore}

theorem Holds.others_contents (h : Holds crc64 f)
    (hk : k ∈ f.sinks) : f.dirs.Perm (contents f.retain (k :: others f.sinks k.id)) :=
  h.dirs.trans (contents_of_perm (perm_others h.ids hk) h.ids)

theorem Holds.replace {f f' : FileSnapshotStore} (h : Holds crc64 f) {k n : FileSnapshotSink}
    (hk : k ∈ f.sinks) (hid : n.id = k.id) (hwf : WellFormed crc64 n)
    (hsinks : f'.sinks = f.sinks.map (fun old => if old.metadata.id = k.id then n else old))
    (hretain : f'.retain = f.retain)
    (hdirs : f'.dirs.Perm (contents f.retain (n :: others f.sinks k.id))) : Holds crc64 f' := by
  have hperm := perm_replaced (n := n) h.ids hk
  rw [← hsinks] at hperm
  have hids : (f'.sinks.map FileSnapshotSink.id).Nodup := by
    have hold : (f.sinks.map FileSnapshotSink.id).Perm
        ((n :: others f.sinks k.id).map FileSnapshotSink.id) := by
      rw [List.map_cons, hid]
      exact (perm_others h.ids hk).map FileSnapshotSink.id
    exact (hperm.map FileSnapshotSink.id).nodup_iff.mpr (hold.nodup_iff.mp h.ids)
  refine ⟨hids, ?_, ?_⟩
  · intro a ha
    rcases List.mem_cons.mp (hperm.mem_iff.mp ha) with rfl | ha'
    · exact hwf
    · exact h.sinks a (List.mem_of_mem_filter ha')
  · rw [hretain]
    exact hdirs.trans (contents_of_perm hperm hids).symm

theorem contents_open
    (hc : k.closed = false) (hd : k.completed = false) :
    contents retain (k :: sinks) = openDir k :: contents retain sinks := by
  simp [contents, opens, finished, hc, hd]

theorem contents_closed
    (hc : k.closed = true) (hd : k.completed = false) :
    contents retain (k :: sinks) = contents retain sinks := by
  simp [contents, opens, finished, hc, hd]

theorem contents_finished
    (hc : k.closed = true) (hd : k.completed = true) :
    contents retain (k :: sinks) = (opens sinks).map openDir ++
      (Lib.top FileSnapshotSink.notOlder retain (k :: finished sinks)).map finalDir := by
  simp [contents, opens, finished, hc, hd]

/-- The newest snapshots can be told from their directories. -/
theorem top_map_finalDir (n : Nat) (l : List FileSnapshotSink) :
    (Lib.top FileSnapshotSink.notOlder n l).map finalDir =
      Lib.top (fun a b => PerfRaft.notOlder a.2.metadata b.2.metadata) n (l.map finalDir) := by
  rw [Lib.top, Lib.top, List.map_take]
  congr 1
  exact List.map_insertionSort FileSnapshotSink.notOlder
    (fun a b : Bytes × SnapshotDir => PerfRaft.notOlder a.2.metadata b.2.metadata) finalDir l
    (fun _ _ _ _ => Iff.rfl)

/-- A sink is replaced and then the call that did it is recorded. -/
theorem record_setSink {f : FileSnapshotStore} {n : FileSnapshotSink} {id : Bytes} (hid : n.id = id)
    (call : SinkCall) : ((f.setSink id n).record id call).sinks =
      f.sinks.map (fun old => if old.metadata.id = id then n.called call else old) := by
  simp only [record, setSink, List.map_map]
  apply List.map_congr_left
  intro old _
  by_cases hold : old.metadata.id = id
  · have hn : n.metadata.id = id := hid
    simp [hold, hn]
  · simp [hold]

/-- No other directory has the name of the temporary one. -/
theorem name_ne_dir
    (hk : WellFormed crc64 k) (hwf : ∀ a ∈ sinks, WellFormed crc64 a) (hne : ∀ a ∈ sinks, a.id ≠ k.id) :
    ∀ d ∈ contents retain sinks, d.1 ≠ k.dir := by
  intro d hd
  rcases List.mem_append.mp hd with hd | hd
  · obtain ⟨a, ha, rfl⟩ := List.mem_map.mp hd
    have ha' := List.mem_of_mem_filter ha
    exact (hwf a ha').dir_ne hk (hne a ha')
  · obtain ⟨a, ha, rfl⟩ := List.mem_map.mp hd
    have ha' := List.mem_of_mem_filter (mem_top ha)
    exact (hwf a ha').id_ne_dir hk

/-- An operation on one directory leaves the others alone. -/
theorem map_named {name : Bytes} {d : Bytes × SnapshotDir} {rest : List (Bytes × SnapshotDir)}
    (hrest : ∀ e ∈ rest, e.1 ≠ name) {u : Bytes × SnapshotDir → Bytes × SnapshotDir}
    (hu : ∀ e, e.1 ≠ name → u e = e) : (d :: rest).map u = u d :: rest := by
  rw [List.map_cons]
  congr 1
  conv_rhs => rw [← List.map_id rest]
  apply List.map_congr_left
  intro e he
  exact hu e (hrest e he)

theorem find_named {l : List (Bytes × SnapshotDir)} {d : Bytes × SnapshotDir} (hd : d ∈ l)
    (h : ∀ e ∈ l, e.1 = d.1 → e = d) : l.find? (fun e => e.1 == d.1) = some d := by
  cases hf : l.find? (fun e => e.1 == d.1) with
  | none =>
    have := List.find?_eq_none.mp hf d hd
    simp at this
  | some e =>
    have hname := List.find?_some hf
    rw [h e (List.mem_of_find?_eq_some hf) (eq_of_beq hname)]

theorem mem_of_sink? {id : Bytes}
    (h : f.sink? id = some k) : k ∈ f.sinks :=
  List.mem_of_find?_eq_some h

theorem id_of_sink? {id : Bytes} (h : f.sink? id = some k) : k.id = id := by
  have hid := List.find?_some h
  exact eq_of_beq hid

section

variable {f : FileSnapshotStore} {k : FileSnapshotSink} (h : Holds crc64 f) (hk : k ∈ f.sinks)

include h hk

theorem Holds.name_ne : ∀ d ∈ contents retain (others f.sinks k.id), d.1 ≠ k.dir :=
  name_ne_dir (h.sinks k hk) (fun a ha => h.sinks a (List.mem_of_mem_filter ha))
    (fun _ ha => id_ne_of_mem_others ha)

/-- The directory while the sink is open: its own, and the rest. -/
theorem Holds.open_dirs (hc : k.closed = false) :
    f.dirs.Perm (openDir k :: contents f.retain (others f.sinks k.id)) := by
  rw [← contents_open hc ((h.sinks k hk).not_completed hc)]
  exact h.others_contents hk

/-- A call on a sink that has been closed or cancelled before. -/
theorem Holds.again (hc : k.closed = true) (call : SinkCall) : Holds crc64 (f.record k.id call) := by
  have hwf := h.sinks k hk
  obtain ⟨hended, hcompleted, hcontents⟩ := called_ended (hwf.ended.trans hc) call
  have hdir : contents f.retain (k.called call :: others f.sinks k.id) =
      contents f.retain (k :: others f.sinks k.id) := by
    cases hd : k.completed with
    | false => rw [contents_closed hc hd, contents_closed (k := k.called call) hc (hcompleted.trans hd)]
    | true =>
      have hsame : finalDir (k.called call) = finalDir k := by
        unfold finalDir
        rw [hcontents]
        rfl
      rw [contents_finished hc hd, contents_finished (k := k.called call) hc (hcompleted.trans hd),
        top_map_finalDir, top_map_finalDir, List.map_cons, List.map_cons, hsame]
  refine h.replace (n := k.called call) hk rfl ?_ ?_ rfl ?_
  · refine ⟨hwf.name, hwf.version, hwf.dir, hended.trans hc.symm, fun hopen => ?_, fun hfin => ?_⟩
    · exact absurd (hopen.symm.trans hc) (by decide)
    · rw [hcontents]
      exact hwf.finished (hcompleted ▸ hfin)
  · apply List.map_congr_left
    intro a ha
    split
    · rename_i hid
      rw [List.inj_on_of_nodup_map h.ids ha hk hid]
    · rfl
  · rw [hdir]
    exact h.others_contents hk

theorem Holds.write (b : Bytes) (passed : Nat) :
    Holds crc64 ((f.write k b passed).record k.id (.write b)) := by
  have hwf := h.sinks k hk
  simp only [FileSnapshotStore.write]
  split
  · rename_i hc
    exact h.again hk hc _
  · rename_i hc
    have hc' : k.closed = false := by simpa using hc
    have hcontent := hwf.unfinished hc'
    obtain ⟨hended, hd, hflat⟩ := called_open (k := k.write b passed) (hwf.ended.trans hc') (.write b)
    refine h.replace (n := (k.write b passed).called (.write b)) hk rfl ?_ ?_ rfl ?_
    · refine ⟨hwf.name, hwf.version, hwf.dir, hended.trans hc'.symm, fun _ => ?_, fun hfin => ?_⟩
      · rw [hflat]
        show _ = k.contents ++ b
        rw [← hcontent]
        simp [FileSnapshotSink.write, FileSnapshotSink.called]
      · exact absurd (hd.symm.trans hfin) (by simp)
    · exact record_setSink (n := k.write b passed) rfl _
    · have hopen : contents f.retain ((k.write b passed).called (.write b) :: others f.sinks k.id) =
          openDir (k.write b passed) :: contents f.retain (others f.sinks k.id) :=
        contents_open hc' hd
      rw [hopen]
      refine ((h.open_dirs hk hc').map _).trans ?_
      rw [map_named (h.name_ne hk) (fun e he => if_neg he)]
      simp [openDir, FileSnapshotSink.write]

/-- The size that `finalize` finds. -/
theorem Holds.finalize_eq (hc : k.closed = false) :
    (f.finalize crc64 k).2 = k.finalize crc64 k.contents.length ∧
    (f.finalize crc64 k).1.dirs.Perm
      ((k.dir, ⟨k.metadata, k.contents⟩) :: contents f.retain (others f.sinks k.id)) := by
  have hdirs : (f.finalize crc64 k).1.dirs.Perm
      ((k.dir, ⟨k.metadata, k.contents⟩) :: contents f.retain (others f.sinks k.id)) := by
    refine ((h.open_dirs hk hc).map _).trans ?_
    rw [map_named (h.name_ne hk) (fun e he => if_neg he)]
    simp [openDir, (h.sinks k hk).unfinished hc]
  refine ⟨?_, hdirs⟩
  have hfind := find_named (hdirs.mem_iff.mpr List.mem_cons_self) (fun e he hname => by
    rcases List.mem_cons.mp (hdirs.mem_iff.mp he) with rfl | he'
    · rfl
    · exact absurd hname (h.name_ne hk e he'))
  simp only [FileSnapshotStore.finalize] at hfind ⊢
  rw [hfind]
  rfl

theorem Holds.cancel : Holds crc64 ((f.cancel crc64 k).record k.id .cancel) := by
  have hwf := h.sinks k hk
  simp only [FileSnapshotStore.cancel]
  split
  · rename_i hc
    exact h.again hk hc _
  · rename_i hc
    have hc' : k.closed = false := by simpa using hc
    obtain ⟨hsink, hdirs⟩ := h.finalize_eq hk hc'
    obtain ⟨hended, hd, -⟩ := called_open (k := k.finalize crc64 k.contents.length)
      (hwf.ended.trans hc') .cancel
    rw [hsink]
    refine h.replace (n := (k.finalize crc64 k.contents.length).called .cancel) hk rfl ?_ ?_ rfl ?_
    · exact ⟨hwf.name, hwf.version, hwf.dir, hended,
        fun hopen => absurd hopen (by simp [FileSnapshotSink.called, FileSnapshotSink.finalize]),
        fun hfin => absurd (hd.symm.trans hfin) (by decide)⟩
    · exact record_setSink (n := k.finalize crc64 k.contents.length) rfl _
    · have hclosed : contents f.retain
            ((k.finalize crc64 k.contents.length).called .cancel :: others f.sinks k.id) =
          contents f.retain (others f.sinks k.id) := contents_closed rfl hd
      rw [hclosed]
      refine (hdirs.filter _).trans ?_
      have hrest : ∀ d ∈ contents f.retain (others f.sinks k.id), d.1 ≠ k.dir := h.name_ne hk
      rw [List.filter_cons_of_neg (by simp [FileSnapshotSink.finalize]), List.filter_eq_self.mpr]
      intro d hd
      exact decide_eq_true (hrest d hd)

end

theorem filterMap_contents {open' complete : List FileSnapshotSink}
    (hopen : ∀ k ∈ open', WellFormed crc64 k) (hcomplete : ∀ k ∈ complete, WellFormed crc64 k) :
    (open'.map openDir ++ complete.map finalDir).filterMap snapshotMeta? =
      complete.map FileSnapshotSink.metadata := by
  have ho : (open'.map openDir).filterMap snapshotMeta? = [] := by
    rw [List.filterMap_eq_nil_iff]
    intro d hd
    obtain ⟨k, hk, rfl⟩ := List.mem_map.mp hd
    exact if_pos (hopen k hk).dir_tmp
  have hc : ∀ k ∈ complete, snapshotMeta? (finalDir k) = some k.metadata := by
    intro k hk
    have hwf := hcomplete k hk
    simp [snapshotMeta?, finalDir, hwf.not_tmp, hwf.version]
  rw [List.filterMap_append, ho, List.nil_append, List.filterMap_map]
  conv_rhs => rw [← List.filterMap_eq_map]
  exact List.filterMap_congr hc

theorem dirs_foldl_removeAll (metas : List FileSnapshotMeta) (f : FileSnapshotStore) :
    (metas.foldl (fun f m => f.removeAll m.id) f).dirs =
      f.dirs.filter (fun d => decide (d.1 ∉ metas.map FileSnapshotMeta.id)) := by
  induction metas generalizing f with
  | nil => simp
  | cons m rest ih =>
    rw [List.foldl_cons, ih, removeAll, List.filter_filter]
    apply List.filter_congr
    intro d _
    simp only [List.map_cons, List.mem_cons, not_or, Bool.decide_and, ne_eq, Bool.and_comm]

theorem foldl_removeAll_same (metas : List FileSnapshotMeta) (f : FileSnapshotStore) :
    (metas.foldl (fun f m => f.removeAll m.id) f).sinks = f.sinks ∧
    (metas.foldl (fun f m => f.removeAll m.id) f).retain = f.retain := by
  induction metas generalizing f with
  | nil => exact ⟨rfl, rfl⟩
  | cons m rest ih => exact ih (f.removeAll m.id)

theorem reapSnapshots_same (f : FileSnapshotStore) :
    f.reapSnapshots.sinks = f.sinks ∧ f.reapSnapshots.retain = f.retain :=
  foldl_removeAll_same _ f

/-- Removing by ID what is left out of the list leaves what is in it. -/
theorem filter_removed {kept removed : List FileSnapshotSink}
    (h : ((kept ++ removed).map FileSnapshotSink.id).Nodup) :
    ((kept ++ removed).map finalDir).filter
      (fun d => decide (d.1 ∉ removed.map FileSnapshotSink.id)) = kept.map finalDir := by
  rw [List.map_append, List.nodup_append] at h
  have hkept : (kept.map finalDir).filter
      (fun d => decide (d.1 ∉ removed.map FileSnapshotSink.id)) = kept.map finalDir := by
    rw [List.filter_eq_self]
    intro d hd
    obtain ⟨k, hk, rfl⟩ := List.mem_map.mp hd
    apply decide_eq_true
    intro hmem
    exact h.2.2 _ (List.mem_map_of_mem hk) _ hmem rfl
  have hremoved : (removed.map finalDir).filter
      (fun d => decide (d.1 ∉ removed.map FileSnapshotSink.id)) = [] := by
    rw [List.filter_eq_nil_iff]
    intro d hd
    obtain ⟨k, hk, rfl⟩ := List.mem_map.mp hd
    simp only [decide_eq_true_eq, not_not]
    exact List.mem_map_of_mem hk
  rw [List.map_append, List.filter_append, hkept, hremoved, List.append_nil]

section

variable {f : FileSnapshotStore} {o l : List FileSnapshotSink}
  (hdirs : f.dirs.Perm (o.map openDir ++ l.map finalDir))
  (ho : ∀ k ∈ o, WellFormed crc64 k) (hl : ∀ k ∈ l, WellFormed crc64 k)
  (hids : (l.map FileSnapshotSink.id).Nodup)

include hdirs ho hl hids

theorem getSnapshots_eq :
    f.getSnapshots = (l.insertionSort FileSnapshotSink.notOlder).map FileSnapshotSink.metadata := by
  have hperm := hdirs.filterMap snapshotMeta?
  rw [filterMap_contents ho hl] at hperm
  have hanti : ∀ a ∈ l.map FileSnapshotSink.metadata, ∀ b ∈ l.map FileSnapshotSink.metadata,
      PerfRaft.notOlder a b → PerfRaft.notOlder b a → a = b := by
    intro a ha b hb hab hba
    obtain ⟨k, hk, rfl⟩ := List.mem_map.mp ha
    obtain ⟨k', hk', rfl⟩ := List.mem_map.mp hb
    rw [List.inj_on_of_nodup_map hids hk hk' (id_eq_of_notOlder hab hba)]
  rw [getSnapshots, ← Lib.insertionSort_of_perm hperm.symm hanti]
  exact (List.map_insertionSort FileSnapshotSink.notOlder PerfRaft.notOlder
    FileSnapshotSink.metadata l (fun _ _ _ _ => Iff.rfl)).symm

/-- Reaping leaves the newest of the complete snapshots and every temporary one. -/
theorem reapSnapshots_dirs :
    f.reapSnapshots.dirs.Perm
      (o.map openDir ++ (Lib.top FileSnapshotSink.notOlder f.retain l).map finalDir) := by
  have hsort := List.perm_insertionSort FileSnapshotSink.notOlder l
  have hreaped : (f.getSnapshots.drop f.retain).map FileSnapshotMeta.id =
      ((l.insertionSort FileSnapshotSink.notOlder).drop f.retain).map FileSnapshotSink.id := by
    rw [getSnapshots_eq hdirs ho hl hids, ← List.map_drop, List.map_map]
    rfl
  rw [reapSnapshots, dirs_foldl_removeAll, hreaped]
  refine (hdirs.filter _).trans ?_
  rw [List.filter_append]
  apply List.Perm.append
  · rw [List.filter_eq_self.mpr]
    intro d hd
    obtain ⟨k, hk, rfl⟩ := List.mem_map.mp hd
    apply decide_eq_true
    intro hmem
    obtain ⟨a, ha, he⟩ := List.mem_map.mp hmem
    exact (hl a (hsort.mem_iff.mp (List.mem_of_mem_drop ha))).id_ne_dir (ho k hk) he
  · refine ((hsort.symm.map finalDir).filter _).trans ?_
    have hnodup := (hsort.map FileSnapshotSink.id).nodup_iff.mpr hids
    rw [← List.take_append_drop f.retain (l.insertionSort FileSnapshotSink.notOlder)] at hnodup
    rw [Lib.top, ← filter_removed hnodup, List.take_append_drop]

end

/-- The sink as `Close` leaves it. -/
def closed (crc64 : Bytes → Bytes) (k : FileSnapshotSink) : FileSnapshotSink :=
  (k.finalize crc64 k.contents.length).called .close

theorem closed_called (h : WellFormed crc64 k) (hc : k.closed = false) :
    (closed crc64 k).ended = true ∧ (closed crc64 k).completed = true ∧
      (closed crc64 k).contents = k.contents := by
  obtain ⟨hended, hcompleted, hcontents⟩ := called_open (k := k.finalize crc64 k.contents.length)
    (h.ended.trans hc) .close
  refine ⟨hended, hcompleted, hcontents.trans ?_⟩
  exact List.append_nil _

theorem Holds.closed_wellFormed (h : Holds crc64 f)
    (hk : k ∈ f.sinks) (hc : k.closed = false) : WellFormed crc64 (closed crc64 k) := by
  have hwf := h.sinks k hk
  obtain ⟨hended, -, hcontents⟩ := closed_called hwf hc
  refine ⟨hwf.name, hwf.version, hwf.dir, hended,
    fun hopen => absurd hopen (by simp [closed, called, FileSnapshotSink.finalize]), fun _ => ?_⟩
  rw [hcontents, ← hwf.unfinished hc]
  exact ⟨congrArg List.length (hwf.unfinished hc).symm, rfl⟩

theorem nodup_top {n : Nat} (h : (l.map FileSnapshotSink.id).Nodup) :
    ((Lib.top FileSnapshotSink.notOlder n l).map FileSnapshotSink.id).Nodup := by
  have hperm := (List.perm_insertionSort FileSnapshotSink.notOlder l).map FileSnapshotSink.id
  exact (hperm.nodup_iff.mpr h).sublist ((List.take_sublist n _).map _)

theorem Holds.closed_ids (h : Holds crc64 f)
    (hk : k ∈ f.sinks) :
    ((closed crc64 k :: Lib.top FileSnapshotSink.notOlder f.retain
      (finished (others f.sinks k.id))).map FileSnapshotSink.id).Nodup := by
  have hids := ((perm_others h.ids hk).map FileSnapshotSink.id).nodup_iff.mp h.ids
  rw [List.map_cons, List.nodup_cons] at hids ⊢
  refine ⟨?_, nodup_top (hids.2.sublist ((List.filter_sublist).map _))⟩
  intro hmem
  obtain ⟨a, ha, he⟩ := List.mem_map.mp hmem
  exact hids.1 (List.mem_map.mpr ⟨a, List.mem_of_mem_filter (mem_top ha), he⟩)

/-- The directory after the snapshot has been moved into place. -/
theorem Holds.renamed_dirs (h : Holds crc64 f)
    (hk : k ∈ f.sinks) (hc : k.closed = false) {metadata : FileSnapshotMeta}
    (hmeta : metadata = (closed crc64 k).metadata) :
    ((((f.finalize crc64 k).1.modifyDir k.dir (fun d => { d with metadata := metadata })).rename
      k.dir (trimSuffix k.dir tmpSuffix)).dirs).Perm
      ((opens (others f.sinks k.id)).map openDir ++
        (closed crc64 k :: Lib.top FileSnapshotSink.notOlder f.retain
          (finished (others f.sinks k.id))).map finalDir) := by
  have hname : trimSuffix k.dir tmpSuffix = k.id := by
    rw [(h.sinks k hk).dir, trimSuffix_append]
  refine (((h.finalize_eq hk hc).2.map _).map _).trans ?_
  rw [map_named (h.name_ne hk) (fun e he => if_neg he),
    map_named (h.name_ne hk) (fun e he => if_neg he), hname]
  have hfinal : finalDir (closed crc64 k) = (k.id, ⟨(closed crc64 k).metadata, k.contents⟩) := by
    unfold finalDir
    rw [(closed_called (h.sinks k hk) hc).2.2]
    rfl
  simp only [if_true, List.map_cons]
  rw [contents, hmeta, hfinal]
  exact List.perm_middle.symm

theorem Holds.close (h : Holds crc64 f)
    (hk : k ∈ f.sinks) : Holds crc64 ((f.close crc64 k).record k.id .close) := by
  simp only [FileSnapshotStore.close]
  split
  · rename_i hc
    exact h.again hk hc _
  · rename_i hc
    have hc' : k.closed = false := by simpa using hc
    obtain ⟨hsink, -⟩ := h.finalize_eq hk hc'
    have hwf := h.closed_wellFormed hk hc'
    have hothers : ∀ a ∈ others f.sinks k.id, WellFormed crc64 a :=
      fun a ha => h.sinks a (List.mem_of_mem_filter ha)
    have hcomplete : ∀ a ∈ closed crc64 k :: Lib.top FileSnapshotSink.notOlder f.retain
        (finished (others f.sinks k.id)), a = closed crc64 k ∨ a ∈ others f.sinks k.id := by
      intro a ha
      exact (List.mem_cons.mp ha).imp_right (fun ha => List.mem_of_mem_filter (mem_top ha))
    have hreaped := reapSnapshots_dirs (h.renamed_dirs hk hc' rfl)
      (fun a ha => hothers a (List.mem_of_mem_filter ha))
      (fun a ha => (hcomplete a ha).elim (fun he => he ▸ hwf) (hothers a))
      (h.closed_ids hk)
    rw [hsink]
    refine h.replace (n := closed crc64 k) hk rfl hwf ?_ ?_ ?_
    · refine (record_setSink (n := k.finalize crc64 k.contents.length) rfl _).trans ?_
      rw [(reapSnapshots_same _).1]
      rfl
    · simp only [record, setSink, (reapSnapshots_same _).2]
      rfl
    · rw [contents_finished rfl (closed_called (h.sinks k hk) hc').2.1, ← Lib.top_cons_top]
      exact hreaped

/-- A new sink comes with a directory of its own. -/
theorem Holds.add (h : Holds crc64 f)
    (hwf : WellFormed crc64 k) (hc : k.closed = false) (hnew : ∀ a ∈ f.sinks, a.id ≠ k.id) :
    Holds crc64
      { f with
        dirs := openDir k :: f.dirs.filter (fun d => decide (d.1 ≠ k.dir)), sinks := k :: f.sinks } where
  ids := by
    rw [List.map_cons, List.nodup_cons]
    refine ⟨?_, h.ids⟩
    intro hmem
    obtain ⟨a, ha, he⟩ := List.mem_map.mp hmem
    exact hnew a ha he
  sinks := by
    intro a ha
    rcases List.mem_cons.mp ha with rfl | ha
    · exact hwf
    · exact h.sinks a ha
  dirs := by
    have hall : f.dirs.filter (fun d => decide (d.1 ≠ k.dir)) = f.dirs := by
      rw [List.filter_eq_self]
      intro d hd
      exact decide_eq_true (name_ne_dir hwf h.sinks hnew d (h.dirs.mem_iff.mp hd))
    rw [contents_open hc (hwf.not_completed hc)]
    simp only [hall]
    exact h.dirs.cons _

theorem Holds.create (h : Holds crc64 f) (version index term : Nat)
    (configuration : Configuration) (configurationIndex msec : Nat)
    (hid : ∀ sink ∈ f.sinks, sink.metadata.id ≠ snapshotName term index msec) :
    Holds crc64 (f.create version index term configuration configurationIndex msec) := by
  simp only [FileSnapshotStore.create]
  split
  · exact h
  · rename_i hv
    have hwf : WellFormed crc64
        { dir := snapshotName term index msec ++ tmpSuffix
          metadata :=
            { version := version, id := snapshotName term index msec, index := index, term := term
              configuration := configuration, configurationIndex := configurationIndex } } :=
      ⟨⟨term, index, msec, rfl⟩, not_not.mp hv, rfl, rfl, fun _ => rfl,
        fun hfin => absurd hfin (by simp [FileSnapshotSink.completed])⟩
    exact h.add hwf rfl hid

theorem Holds.step {f f' : FileSnapshotStore} (h : Holds crc64 f) {a : FileSnapshotAction}
    (hok : f.distinctIDs a) (hstep : f.step crc64 a = some f') : Holds crc64 f' := by
  cases a with
  | create version index term configuration configurationIndex msec =>
    cases hstep
    exact h.create version index term configuration configurationIndex msec hok
  | write id b passed =>
    obtain ⟨k, hk, rfl⟩ := Option.map_eq_some_iff.mp hstep
    rw [← id_of_sink? hk]
    exact h.write (mem_of_sink? hk) b passed
  | close id =>
    obtain ⟨k, hk, rfl⟩ := Option.map_eq_some_iff.mp hstep
    rw [← id_of_sink? hk]
    exact h.close (mem_of_sink? hk)
  | cancel id =>
    obtain ⟨k, hk, rfl⟩ := Option.map_eq_some_iff.mp hstep
    rw [← id_of_sink? hk]
    exact h.cancel (mem_of_sink? hk)

theorem holds_of_reachable (h : (system crc64).Reachable distinctIDs f) :
    Holds crc64 f := by
  apply h.invariant
  · rintro f ⟨retain, -, rfl⟩
    exact holds_new retain
  · intro f a f' hf hok hstep
    exact hf.step hok hstep

theorem Holds.top_ids (h : Holds crc64 f) :
    ((Lib.top FileSnapshotSink.notOlder f.retain (finished f.sinks)).map FileSnapshotSink.id).Nodup :=
  nodup_top (h.ids.sublist (List.filter_sublist.map _))

/-- The newest complete snapshots that are listed are those of some of the sinks. -/
theorem Holds.list_eq (h : Holds crc64 f) :
    f.list = (Lib.top FileSnapshotSink.notOlder f.retain (finished f.sinks)).map
      FileSnapshotSink.metadata := by
  have hwf : ∀ k ∈ Lib.top FileSnapshotSink.notOlder f.retain (finished f.sinks), WellFormed crc64 k :=
    fun k hk => h.sinks k (List.mem_of_mem_filter (mem_top hk))
  have hget := getSnapshots_eq h.dirs (fun k hk => h.sinks k (List.mem_of_mem_filter hk)) hwf h.top_ids
  have htop := Lib.top_isTop (r := FileSnapshotSink.notOlder) f.retain (finished f.sinks)
  rw [list, hget, htop.ordered.insertionSort_eq, ← List.map_take, List.take_of_length_le]
  rw [htop.length]
  exact Nat.min_le_left _ _

/-- The metadata of the snapshots whose sink was closed before it was cancelled. -/
def completedMetas (f : FileSnapshotStore) : List FileSnapshotMeta :=
  (finished f.sinks).map FileSnapshotSink.metadata

theorem top_map_metadata (n : Nat) (l : List FileSnapshotSink) :
    (Lib.top FileSnapshotSink.notOlder n l).map FileSnapshotSink.metadata =
      Lib.top PerfRaft.notOlder n (l.map FileSnapshotSink.metadata) := by
  rw [Lib.top, Lib.top, List.map_take]
  congr 1
  exact List.map_insertionSort FileSnapshotSink.notOlder PerfRaft.notOlder
    FileSnapshotSink.metadata l (fun _ _ _ _ => Iff.rfl)

/-- A listed snapshot can be opened and has what was written to its sink. -/
theorem Holds.openSnapshot (h : Holds crc64 f)
    (hk : k ∈ Lib.top FileSnapshotSink.notOlder f.retain (finished f.sinks)) :
    f.openSnapshot crc64 k.id = some (k.metadata, k.contents) := by
  have hmem : ∀ {a}, a ∈ Lib.top FileSnapshotSink.notOlder f.retain (finished f.sinks) → a ∈ f.sinks :=
    fun ha => List.mem_of_mem_filter (mem_top ha)
  have hwf := h.sinks k (hmem hk)
  have hfind := find_named (d := finalDir k)
    (h.dirs.mem_iff.mpr (List.mem_append_right _ (List.mem_map_of_mem hk))) (fun e he hname => by
      rcases List.mem_append.mp (h.dirs.mem_iff.mp he) with he' | he'
      · obtain ⟨a, ha, rfl⟩ := List.mem_map.mp he'
        exact absurd hname.symm (hwf.id_ne_dir (h.sinks a (List.mem_of_mem_filter ha)))
      · obtain ⟨a, ha, rfl⟩ := List.mem_map.mp he'
        rw [List.inj_on_of_nodup_map h.ids (hmem ha) (hmem hk) hname])
  have hcrc := (hwf.finished (List.mem_filter.mp (mem_top hk)).2).2
  have hid : (finalDir k).1 = k.id := rfl
  rw [hid] at hfind
  simp only [FileSnapshotStore.openSnapshot, hfind, finalDir]
  rw [if_pos hcrc]

/-- After any calls on any sinks with distinct IDs, the listed snapshots are the newest
of those whose sink was closed before it was cancelled, each strictly newer than the
next; no other sink is listed; and a listed one can be opened, with the size and the
contents that were written to its sink before it was closed. -/
theorem list_newest {f : FileSnapshotStore} (h : (system crc64).Reachable distinctIDs f) :
    Lib.IsTop PerfRaft.notOlder f.retain f.completedMetas f.list ∧
    f.list.Pairwise (fun a b => snapMetaLess b a = true) ∧
    (∀ k ∈ f.sinks, k.completed = false → k.id ∉ f.list.map FileSnapshotMeta.id) ∧
    ∀ m ∈ f.list, ∃ k ∈ f.sinks, k.completed = true ∧ k.metadata = m ∧
      f.openSnapshot crc64 m.id = some (m, k.writes.flatten) ∧
      m.size = k.writes.flatten.length := by
  have hf := holds_of_reachable h
  have hlist := hf.list_eq
  have hmem : ∀ k ∈ Lib.top FileSnapshotSink.notOlder f.retain (finished f.sinks),
      k ∈ f.sinks ∧ k.completed = true :=
    fun k hk => List.mem_filter.mp (mem_top hk)
  have htop := Lib.top_isTop (r := PerfRaft.notOlder) f.retain f.completedMetas
  rw [completedMetas, ← top_map_metadata, ← hlist] at htop
  have hids : (f.list.map FileSnapshotMeta.id).Nodup := by
    rw [hlist, List.map_map]
    exact hf.top_ids
  refine ⟨htop, ?_, ?_, ?_⟩
  · refine (htop.ordered.and (List.pairwise_map.mp hids)).imp ?_
    rintro a b ⟨hab, hne⟩
    by_contra hba
    exact hne (id_eq_of_notOlder hab ((notOlder_iff b a).mpr hba))
  · intro k hk hc hlisted
    rw [hlist, List.map_map] at hlisted
    obtain ⟨a, ha, he⟩ := List.mem_map.mp hlisted
    obtain ⟨ha', hdone⟩ := hmem a ha
    have hak : a = k := List.inj_on_of_nodup_map hf.ids ha' hk he
    rw [hak, hc] at hdone
    cases hdone
  · intro m hm
    rw [hlist] at hm
    obtain ⟨k, hk, rfl⟩ := List.mem_map.mp hm
    obtain ⟨hk', hdone⟩ := hmem k hk
    exact ⟨k, hk', hdone, rfl, hf.openSnapshot hk, ((hf.sinks k hk').finished hdone).1⟩

instance decidableDistinctIDs (f : FileSnapshotStore) : ∀ a, Decidable (f.distinctIDs a)
  | .create _ index term _ _ msec =>
    inferInstanceAs (Decidable (∀ sink ∈ f.sinks, sink.metadata.id ≠ snapshotName term index msec))
  | .write _ _ _ | .close _ | .cancel _ => .isTrue trivial

/-- Three sinks with one snapshot to be retained: the older of two finishes last, and
the newest of all is cancelled and then closed. -/
def finishOutOfOrder : List (FileSnapshotStore → FileSnapshotAction) :=
  [fun _ => .create 1 10 3 {} 0 100, fun _ => .create 1 11 3 {} 0 101,
    fun _ => .write (snapshotName 3 11 101) [7, 8] 1, fun _ => .create 1 12 3 {} 0 102,
    fun _ => .write (snapshotName 3 11 101) [9] 0, fun _ => .close (snapshotName 3 11 101),
    fun _ => .write (snapshotName 3 10 100) [1] 0, fun _ => .close (snapshotName 3 10 100),
    fun _ => .cancel (snapshotName 3 12 102), fun _ => .close (snapshotName 3 12 102)]

theorem list_newest_outOfOrder :
    ∃ f : FileSnapshotStore, (system (fun s => s)).Reachable distinctIDs f ∧
      f.list.map (fun m => (m.index, m.size)) = [(11, 3)] ∧
      f.completedMetas.length = 2 ∧ ∃ m ∈ f.list, ∃ k ∈ f.sinks,
        f.openSnapshot (fun s => s) m.id = some (m, k.writes.flatten) := by
  obtain ⟨f, hreach, hlist, hcompleted⟩ : ∃ f : FileSnapshotStore,
      (system (fun s => s)).Reachable distinctIDs f ∧
      f.list.map (fun m => (m.index, m.size)) = [(11, 3)] ∧ f.completedMetas.length = 2 :=
    Lib.System.exists_reachable ⟨1, Nat.le_refl 1, rfl⟩ finishOutOfOrder (by decide +kernel)
  have hnewest := list_newest hreach
  obtain ⟨m, hm⟩ : ∃ m, m ∈ f.list := by
    apply List.exists_mem_of_ne_nil
    intro hnil
    rw [hnil] at hlist
    cases hlist
  obtain ⟨k, hk, -, -, hopen, -⟩ := hnewest.2.2.2 m hm
  exact ⟨f, hreach, hlist, hcompleted, m, hm, k, hk, hopen⟩

end FileSnapshotStore

end PerfRaft
