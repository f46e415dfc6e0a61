import Folo.Lib.ChangeLog
import Folo.BenchHistory.Caching

/-!
# What the cloud store has been through

The history beside the machine: every change to the cloud store in order,
and the positions in it at which readers began, read the marker and fetched,
and at which a mirror was last listed for a wipe. It says what a stale object
is (`Superseded`), and the facts about the log that do not depend on any
mirror are kept here (`LogOk`): a writer's changes come before its flush, and
no marker value is written twice, so two equal markers have the same flushes
behind them (`lt_of_epochAt_eq`).
-/

namespace Folo.BenchHistory

open Folo.Lib Folo.Lib.Machine

variable {R D W : Type}

/-- What a change to the cloud store is. -/
inductive Edit
  /-- a new object -/
  | create
  /-- an object is overwritten or deleted -/
  | mutate
  /-- a fresh marker -/
  | flush
  deriving DecidableEq

abbrev CloudChange (W : Type) := Change Key Bytes (W × Edit)

abbrev CloudLog (W : Type) := List (CloudChange W)

/-- The change that a writer's step makes. -/
def changeOf (sys : Deployment R D W) (s : World R D W) (w : W) :
    WriterMove → Option (CloudChange W)
  | .put key bytes =>
    match s.cloud.lookup key with
    | some _ => none
    | none => some ⟨(w, .create), key, some bytes⟩
  | .putOverwrite key bytes =>
    match s.cloud.lookup key with
    | some _ => some ⟨(w, .mutate), key, some bytes⟩
    | none => some ⟨(w, .create), key, some bytes⟩
  | .delete key =>
    match s.cloud.lookup key with
    | some _ => some ⟨(w, .mutate), key, none⟩
    | none => none
  | .flush token ok =>
    if (s.writers w).armed && ok then
      some ⟨(w, .flush), cacheEpochKey (sys.writerProject w), some token⟩
    else none

/-- The changes so far, and positions among them. -/
structure History (R D W : Type) where
  log : CloudLog W
  /-- where a reader's `synchronize` began -/
  began : R → Nat
  /-- where it read the marker -/
  read : R → Nat
  /-- where a `get` fetched from the cloud store -/
  fetched : R → Nat → Nat
  /-- where a mirror was last listed for a wipe, by prefix -/
  listing : D → Key → Nat

section

variable [DecidableEq R] [DecidableEq D]

def history (sys : Deployment R D W) :
    Monitor (World R D W) (R × ReaderMove ⊕ W × WriterMove) (History R D W) where
  start :=
    { log := [], began := fun _ => 0, read := fun _ => 0, fetched := fun _ _ => 0,
      listing := fun _ _ => 0 }
  update m s l _ :=
    match l with
    | .inl (r, .sync ok) =>
      match (s.readers r).sync, ok with
      | .idle, _ => { m with began := Function.update m.began r m.log.length }
      | .started, true => { m with read := Function.update m.read r m.log.length }
      | .listing _, true =>
        { m with
          listing := Function.update m.listing (sys.mirror r)
            (Function.update (m.listing (sys.mirror r))
              (projectObjectsPrefix (sys.readerProject r)) m.log.length) }
      | _, _ => m
    | .inl (_, .get _ _) => m
    | .inl (r, .task task ok) =>
      match (s.readers r).gets task, ok with
      | .fetch _, true =>
        { m with
          fetched := Function.update m.fetched r
            (Function.update (m.fetched r) task m.log.length) }
      | _, _ => m
    | .inr (w, move) => { m with log := m.log ++ (changeOf sys s w move).toList }

end

/-! ## Stale objects -/

/-- What a key held at position `f` has been overwritten or deleted since, by
a writer whose flush had completed by position `n`. -/
def Superseded (log : CloudLog W) (f : Nat) (key : Key) (n : Nat) : Prop :=
  ∃ (w : W) (i j : Nat) (c d : CloudChange W),
    f ≤ i ∧ i < n ∧ j < n ∧ log[i]? = some c ∧ log[j]? = some d ∧
    c.author = (w, .mutate) ∧ c.key = key ∧ d.author = (w, .flush)

/-- The bytes were the key's at some time, and are not superseded. -/
def Current (log : CloudLog W) (n : Nat) (key : Key) (bytes : Bytes) : Prop :=
  ∃ f ≤ log.length, valueAt (log.take f) key = some bytes ∧ ¬ Superseded log f key n

/-- No `get` has returned bytes that a writer overwrote or deleted whose
flush had completed before the reader's `synchronize` began. -/
def Coherent (s : World R D W) (m : History R D W) : Prop :=
  ∀ r task key bytes, (s.readers r).gets task = .returned key bytes →
    Current m.log (m.began r) key bytes

/-- The marker of a project at a position. -/
def epochAt (log : CloudLog W) (n : Nat) (project : Key) : Bytes :=
  (valueAt (log.take n) (cacheEpochKey project)).getD genesisEpoch

section

variable {log log' : CloudLog W} {f n : Nat} {key project : Key} {bytes : Bytes}

theorem getElem?_of_isPrefix (hlog : log <+: log') {i : Nat} (hi : i < log.length) :
    log'[i]? = log[i]? := by
  obtain ⟨t, rfl⟩ := hlog
  exact List.getElem?_append_left hi

theorem take_of_isPrefix (hlog : log <+: log') (hn : n ≤ log.length) :
    log'.take n = log.take n := by
  obtain ⟨t, rfl⟩ := hlog
  exact List.take_append_of_le_length hn

/-- What was superseded by a position does not depend on what came later. -/
theorem superseded_of_isPrefix (hlog : log <+: log') (hn : n ≤ log.length) :
    Superseded log' f key n ↔ Superseded log f key n := by
  have hget : ∀ i, i < n → log'[i]? = log[i]? := fun i hi =>
    getElem?_of_isPrefix hlog (Nat.lt_of_lt_of_le hi hn)
  constructor
  · rintro ⟨w, i, j, c, d, hfi, hi, hj, hc, hd, hrest⟩
    exact ⟨w, i, j, c, d, hfi, hi, hj, (hget i hi).symm.trans hc, (hget j hj).symm.trans hd, hrest⟩
  · rintro ⟨w, i, j, c, d, hfi, hi, hj, hc, hd, hrest⟩
    exact ⟨w, i, j, c, d, hfi, hi, hj, (hget i hi).trans hc, (hget j hj).trans hd, hrest⟩

theorem Superseded.mono {n' : Nat} (hn : n ≤ n') (h : Superseded log f key n) :
    Superseded log f key n' := by
  obtain ⟨w, i, j, c, d, hfi, hi, hj, hrest⟩ := h
  exact ⟨w, i, j, c, d, hfi, Nat.lt_of_lt_of_le hi hn, Nat.lt_of_lt_of_le hj hn, hrest⟩

/-- Nothing that was there at `n` or later is superseded by `n`. -/
theorem not_superseded_of_le (h : n ≤ f) : ¬ Superseded log f key n := by
  rintro ⟨w, i, j, c, d, hfi, hi, -⟩
  omega

theorem Current.of_isPrefix (hlog : log <+: log') (hn : n ≤ log.length)
    (h : Current log n key bytes) : Current log' n key bytes := by
  obtain ⟨f, hf, hv, hs⟩ := h
  refine ⟨f, Nat.le_trans hf hlog.length_le, ?_, fun hs' =>
    hs ((superseded_of_isPrefix hlog hn).mp hs')⟩
  rw [take_of_isPrefix hlog hf]
  exact hv

theorem epochAt_of_isPrefix (hlog : log <+: log') (hn : n ≤ log.length) (project : Key) :
    epochAt log' n project = epochAt log n project := by
  rw [epochAt, epochAt, take_of_isPrefix hlog hn]

end

/-! ## The log itself -/

/-- What holds of the cloud store and its writers alone. -/
structure LogOk (sys : Deployment R D W) (cloud : Objects) (writers : W → Writer)
    (tokens : List Bytes) (log : CloudLog W) : Prop where
  cloud : ∀ key, valueAt log key = cloud.lookup key
  created : ∀ (i : Nat) (c : CloudChange W) (w : W), log[i]? = some c → c.author = (w, .create) →
    IsObject (sys.writerProject w) c.key
  mutated : ∀ (i : Nat) (c : CloudChange W) (w : W), log[i]? = some c → c.author = (w, .mutate) →
    IsObject (sys.writerProject w) c.key
  flushed : ∀ (i : Nat) (c : CloudChange W) (w : W), log[i]? = some c → c.author = (w, .flush) →
    (writers w).ended = true ∧ c.key = cacheEpochKey (sys.writerProject w) ∧
      ∃ token ∈ tokens, c.value = some token ∧ token ≠ genesisEpoch
  order : ∀ (i j : Nat) (c d : CloudChange W) (w : W), log[i]? = some c → log[j]? = some d →
    c.author = (w, .mutate) →
    d.author = (w, .flush) → i < j
  distinct : ∀ (i j : Nat) (c d : CloudChange W), log[i]? = some c → log[j]? = some d →
    c.author.2 = .flush →
    d.author.2 = .flush → c.value = d.value → i = j

section

variable {sys : Deployment R D W} {cloud : Objects} {writers : W → Writer} {tokens : List Bytes}
  {log : CloudLog W} {project : Key}

/-- What is under a marker key is a marker. -/
theorem LogOk.marker (hok : LogOk sys cloud writers tokens log) {i : Nat}
    {c : CloudChange W} (hc : log[i]? = some c)
    (hk : c.key = cacheEpochKey project) :
    c.author.2 = .flush ∧ ∃ token, c.value = some token ∧ token ≠ genesisEpoch := by
  obtain ⟨⟨w, edit⟩, key, value⟩ := c
  cases edit with
  | create => exact absurd (hk ▸ hok.created i _ w hc rfl) (marker_not_object _ _)
  | mutate => exact absurd (hk ▸ hok.mutated i _ w hc rfl) (marker_not_object _ _)
  | flush =>
    obtain ⟨-, -, token, -, hv, hne⟩ := hok.flushed i _ w hc rfl
    exact ⟨rfl, token, hv, hne⟩

/-- A flush by the writer of a project's object writes that project's
marker. -/
theorem LogOk.flush_key (hok : LogOk sys cloud writers tokens log) {i j : Nat}
    {c d : CloudChange W} {w : W} (hc : log[i]? = some c) (hd : log[j]? = some d)
    (hca : c.author = (w, .mutate)) (hda : d.author = (w, .flush)) (hobj : IsObject project c.key) :
    d.key = cacheEpochKey project := by
  rw [(hok.flushed j d w hd hda).2.1, cacheEpochKey, cacheEpochKey,
    project_eq_of_object (hok.mutated i c w hc hca) hobj]

/-- Two equal markers have the same flushes behind them. -/
theorem LogOk.lt_of_epochAt_eq (hok : LogOk sys cloud writers tokens log) {n n' : Nat}
    (hepoch : epochAt log n project = epochAt log n' project) {j : Nat}
    {c : CloudChange W} (hc : log[j]? = some c)
    (hk : c.key = cacheEpochKey project) (hj : j < n) : j < n' := by
  by_contra hge
  have htake : (log.take n)[j]? = some c := by
    rw [List.getElem?_take_of_lt hj]
    exact hc
  -- the last marker before `n` is at `j` or later
  obtain ⟨j₁, d, hjj, hd, hdk, hdv⟩ := valueAt_of_change htake hk
  have hdlog : log[j₁]? = some d := by
    obtain ⟨hlt, -⟩ := List.getElem?_eq_some_iff.mp hd
    rw [List.length_take] at hlt
    rwa [List.getElem?_take_of_lt (by omega)] at hd
  obtain ⟨hflush, token, hv, hne⟩ := hok.marker hdlog hdk
  -- and its value is the one read at `n'`
  have hread : valueAt (log.take n') (cacheEpochKey project) = some token := by
    unfold epochAt at hepoch
    rw [hdv, hv, Option.getD_some] at hepoch
    cases hval : valueAt (log.take n') (cacheEpochKey project) with
    | none =>
      rw [hval] at hepoch
      exact absurd hepoch hne
    | some token' =>
      rw [hval] at hepoch
      exact congrArg some hepoch.symm
  obtain ⟨i, e, hi, hek, hev, -⟩ := change_of_valueAt hread
  obtain ⟨hlt, -⟩ := List.getElem?_eq_some_iff.mp hi
  rw [List.length_take] at hlt
  have helog : log[i]? = some e := by rwa [List.getElem?_take_of_lt (by omega)] at hi
  have heq := hok.distinct i j₁ e d helog hdlog (hok.marker helog hek).1 hflush (hev.trans hv.symm)
  omega

end

/-! ## A step of a writer -/

section

variable {sys : Deployment R D W} {cloud cloud' : Objects} {writers writers' : W → Writer}
  {tokens tokens' : List Bytes} {log : CloudLog W}

/-- One more change. -/
theorem LogOk.concat {c : CloudChange W} (hok : LogOk sys cloud writers tokens log)
    (hcloud : ∀ key, (if c.key = key then c.value else cloud.lookup key) = cloud'.lookup key)
    (hwriters : ∀ w, (writers w).ended = true → (writers' w).ended = true)
    (htokens : ∀ token ∈ tokens, token ∈ tokens')
    (hcreated : ∀ w, c.author = (w, .create) → IsObject (sys.writerProject w) c.key)
    (hmutated : ∀ w, c.author = (w, .mutate) →
      IsObject (sys.writerProject w) c.key ∧ (writers w).ended = false)
    (hflushed : ∀ w, c.author = (w, .flush) →
      (writers' w).ended = true ∧ c.key = cacheEpochKey (sys.writerProject w) ∧
        ∃ token ∈ tokens', c.value = some token ∧ token ≠ genesisEpoch ∧ token ∉ tokens) :
    LogOk sys cloud' writers' tokens' (log ++ [c]) := by
  -- a flush before this change used a token that was known
  have hused : ∀ (i : Nat) (d : CloudChange W), log[i]? = some d → d.author.2 = .flush →
      ∃ token ∈ tokens, d.value = some token := by
    intro i d hd hflush
    obtain ⟨-, -, token, hin, hv, -⟩ := hok.flushed i d d.author.1 hd (Prod.ext rfl hflush)
    exact ⟨token, hin, hv⟩
  have hnew : c.author.2 = .flush → ∀ token ∈ tokens, c.value ≠ some token := by
    intro hflush token hin hv
    obtain ⟨-, -, token', -, hv', -, hnot⟩ := hflushed c.author.1 (Prod.ext rfl hflush)
    exact hnot (Option.some.inj (hv'.symm.trans hv) ▸ hin)
  constructor
  case cloud =>
    intro key
    rw [valueAt_concat, hok.cloud]
    exact hcloud key
  case created =>
    intro i d w hd ha
    rcases getElem?_concat_cases hd with hold | ⟨-, rfl⟩
    · exact hok.created i d w hold ha
    · exact hcreated w ha
  case mutated =>
    intro i d w hd ha
    rcases getElem?_concat_cases hd with hold | ⟨-, rfl⟩
    · exact hok.mutated i d w hold ha
    · exact (hmutated w ha).1
  case flushed =>
    intro i d w hd ha
    rcases getElem?_concat_cases hd with hold | ⟨-, rfl⟩
    · obtain ⟨hend, hkey, token, hin, hv⟩ := hok.flushed i d w hold ha
      exact ⟨hwriters w hend, hkey, token, htokens token hin, hv⟩
    · obtain ⟨hend, hkey, token, hin, hv, hne, -⟩ := hflushed w ha
      exact ⟨hend, hkey, token, hin, hv, hne⟩
  case order =>
    intro i j d e w hd he hda hea
    rcases getElem?_concat_cases hd with hdold | ⟨rfl, rfl⟩
    · rcases getElem?_concat_cases he with heold | ⟨rfl, -⟩
      · exact hok.order i j d e w hdold heold hda hea
      · exact (List.getElem?_eq_some_iff.mp hdold).1
    · rcases getElem?_concat_cases he with heold | ⟨-, rfl⟩
      · exact nomatch (hok.flushed j e w heold hea).1.symm.trans (hmutated w hda).2
      · exact nomatch hda.symm.trans hea
  case distinct =>
    intro i j d e hd he hda hea hv
    rcases getElem?_concat_cases hd with hdold | ⟨rfl, rfl⟩
    · rcases getElem?_concat_cases he with heold | ⟨-, rfl⟩
      · exact hok.distinct i j d e hdold heold hda hea hv
      · obtain ⟨token, hin, hdv⟩ := hused i d hdold hda
        exact absurd (hv.symm.trans hdv) (hnew hea token hin)
    · rcases getElem?_concat_cases he with heold | ⟨rfl, -⟩
      · obtain ⟨token, hin, hev⟩ := hused j e heold hea
        exact absurd (hv.trans hev) (hnew hda token hin)
      · rfl

/-- A step that changes nothing in the cloud store. -/
theorem LogOk.mono (hok : LogOk sys cloud writers tokens log)
    (hwriters : ∀ w, (writers w).ended = true → (writers' w).ended = true)
    (htokens : ∀ token ∈ tokens, token ∈ tokens') : LogOk sys cloud writers' tokens' log where
  cloud := hok.cloud
  created := hok.created
  mutated := hok.mutated
  flushed i c w hc ha := by
    obtain ⟨hend, hkey, token, hin, hv⟩ := hok.flushed i c w hc ha
    exact ⟨hwriters w hend, hkey, token, htokens token hin, hv⟩
  order := hok.order
  distinct := hok.distinct

theorem lookup_insert_eq (cloud : Objects) (k key : Key) (bytes : Bytes) :
    (if k = key then some bytes else cloud.lookup key) = (cloud.insert k bytes).lookup key := by
  split
  next h =>
    subst h
    exact (AList.lookup_insert cloud).symm
  next h => exact (AList.lookup_insert_ne fun hk => h hk.symm).symm

theorem lookup_erase_eq (cloud : Objects) (k key : Key) :
    (if k = key then none else cloud.lookup key) = (cloud.erase k).lookup key := by
  split
  next h =>
    subst h
    exact (AList.lookup_erase k cloud).symm
  next h => exact (AList.lookup_erase_ne fun hk => h hk.symm).symm

variable [DecidableEq W] {s s' : World R D W} {w : W} {move : WriterMove}

/-- A step of a writer keeps the facts about the log, and nothing else of the
state changes. -/
theorem writerStep_spec (hok : LogOk sys s.cloud s.writers s.tokens log)
    (hs : writerStep sys s w move = some s') :
    LogOk sys s'.cloud s'.writers s'.tokens (log ++ (changeOf sys s w move).toList) ∧
      s'.mirrors = s.mirrors ∧ s'.readers = s.readers := by
  unfold writerStep at hs
  split at hs
  · cases hs
  next hend =>
  have hend : (s.writers w).ended = false := Bool.eq_false_iff.mpr hend
  obtain ⟨r, hr, rfl⟩ := Option.map_eq_some_iff.mp hs
  refine ⟨?_, rfl, rfl⟩
  have hwriters : ∀ {x : Writer}, (x.ended = (s.writers w).ended ∨ x.ended = true) → ∀ v,
      (s.writers v).ended = true → (Function.update s.writers w x v).ended = true := by
    intro x hx v hv
    by_cases hvw : v = w
    · subst hvw
      rw [Function.update_self]
      rcases hx with hx | hx
      · rw [hx, hv]
      · exact hx
    · rw [Function.update_of_ne hvw]
      exact hv
  have hself : ∀ {v : W} {edit edit' : Edit}, (w, edit) = (v, edit') → v = w ∧ edit = edit' :=
    fun h => ⟨(Prod.mk.inj h).1.symm, (Prod.mk.inj h).2⟩
  cases move with
  | put key bytes =>
    simp only [writeStep] at hr
    split at hr
    next hobj =>
      cases hc : s.cloud.lookup key with
      | some old =>
        simp only [hc] at hr
        obtain rfl := Option.some.inj hr
        simp only [changeOf, hc, Option.toList_none, List.append_nil]
        exact hok.mono (hwriters (.inl rfl)) fun _ h => h
      | none =>
        simp only [hc] at hr
        obtain rfl := Option.some.inj hr
        simp only [changeOf, hc, Option.toList_some]
        refine hok.concat (lookup_insert_eq _ _ · _) (hwriters (.inl rfl)) (fun _ h => h) ?_ ?_ ?_
        · rintro v hv
          exact (hself hv).1 ▸ hobj
        · rintro v hv
          cases (hself hv).2
        · rintro v hv
          cases (hself hv).2
    · cases hr
  | putOverwrite key bytes =>
    simp only [writeStep] at hr
    split at hr
    next hobj =>
      cases hc : s.cloud.lookup key with
      | some old =>
        simp only [hc] at hr
        obtain rfl := Option.some.inj hr
        simp only [changeOf, hc, Option.toList_some]
        refine hok.concat (lookup_insert_eq _ _ · _) (hwriters (.inl rfl)) (fun _ h => h) ?_ ?_ ?_
        · rintro v hv
          cases (hself hv).2
        · rintro v hv
          obtain ⟨rfl, -⟩ := hself hv
          exact ⟨hobj, hend⟩
        · rintro v hv
          cases (hself hv).2
      | none =>
        simp only [hc] at hr
        obtain rfl := Option.some.inj hr
        simp only [changeOf, hc, Option.toList_some]
        refine hok.concat (lookup_insert_eq _ _ · _) (hwriters (.inl rfl)) (fun _ h => h) ?_ ?_ ?_
        · rintro v hv
          exact (hself hv).1 ▸ hobj
        · rintro v hv
          cases (hself hv).2
        · rintro v hv
          cases (hself hv).2
    · cases hr
  | delete key =>
    simp only [writeStep] at hr
    split at hr
    next hobj =>
      cases hc : s.cloud.lookup key with
      | some old =>
        simp only [hc] at hr
        obtain rfl := Option.some.inj hr
        simp only [changeOf, hc, Option.toList_some]
        refine hok.concat (lookup_erase_eq _ _) (hwriters (.inl rfl)) (fun _ h => h) ?_ ?_ ?_
        · rintro v hv
          cases (hself hv).2
        · rintro v hv
          obtain ⟨rfl, -⟩ := hself hv
          exact ⟨hobj, hend⟩
        · rintro v hv
          cases (hself hv).2
      | none =>
        simp only [hc] at hr
        obtain rfl := Option.some.inj hr
        simp only [changeOf, hc, Option.toList_none, List.append_nil]
        exact hok.mono (hwriters (.inl rfl)) fun _ h => h
    · cases hr
  | flush token ok =>
    simp only [writeStep] at hr
    have htokens : ∀ t ∈ s.tokens, t ∈ token :: s.tokens := fun _ h => List.mem_cons_of_mem _ h
    split at hr
    next harmed =>
      cases ok with
      | false =>
        obtain rfl := Option.some.inj hr
        simp only [changeOf, harmed, Bool.and_false, Bool.false_eq_true, if_false,
          Option.toList_none, List.append_nil]
        exact hok.mono (hwriters (.inr rfl)) htokens
      | true =>
        simp only [if_true] at hr
        split at hr
        · cases hr
        next hfresh =>
          obtain rfl := Option.some.inj hr
          simp only [changeOf, harmed, Bool.and_self, if_true, Option.toList_some]
          refine hok.concat (lookup_insert_eq _ _ · _) (hwriters (.inr rfl)) htokens ?_ ?_ ?_
          · rintro v hv
            cases (hself hv).2
          · rintro v hv
            cases (hself hv).2
          · rintro v hv
            obtain ⟨rfl, -⟩ := hself hv
            refine ⟨?_, rfl, token, List.mem_cons_self .., rfl, fun h => hfresh (.inr h),
              fun h => hfresh (.inl h)⟩
            rw [Function.update_self]
    next harmed =>
      obtain rfl := Option.some.inj hr
      simp only [changeOf, Bool.eq_false_iff.mpr harmed, Bool.false_and, Bool.false_eq_true,
        if_false, Option.toList_none, List.append_nil]
      exact hok.mono (hwriters (.inr rfl)) htokens

end

end Folo.BenchHistory
