import Folo.Dure.StoreProcesses

/-!
# Session ids belong to their owners

Whoever is inside the store's protocol keeps to one rule towards everybody
else (`Keeps`): a file that has reached its record name is never written to
again (`Sealed`), and the names that belong to a live process stay as they
are. `publish_spec` and `deleteOwnedBy_spec` show it of the two operations,
and each process's own knowledge of the files (`StoreFits`) survives what the others
do (`StoreFits.keeps`). Deleting is safe by the
ownership check on the open handle: it removes a sealed file, and that file's
owner is the deleter itself or has ended.
-/

namespace Folo.Dure

open Folo.Lib

/-! ## What a step keeps for the others -/

/-- A file that has no name but a record's. -/
structure Sealed (files : StoreFiles) (f : FileId) : Prop where
  lt : f < files.next
  names : ∀ n, files.names n = some f → ∃ id, n = .record id

theorem sealed_of_record {files : StoreFiles} {id : SessionId} {f : FileId}
    (h : files.names (.record id) = some f) : Sealed files f :=
  ⟨files.names_lt h, fun _ hn => ⟨id, files.names_inj hn h⟩⟩

/-- What a step in the name of the processes `W` keeps for all others. -/
structure Keeps (W : ProcessIdentity → Prop) (h h' : Host) : Prop where
  gone : ∀ p, h.gone p = true → h'.gone p = true
  isSealed : ∀ f, Sealed h.files f → Sealed h'.files f ∧ h'.files.bytes f = h.files.bytes f
  record : ∀ p id, ¬ W p → h.gone p = false → ownerOf h.files id = some p →
    h'.files.entry (.record id) = h.files.entry (.record id)
  tmp : ∀ p id, ¬ W p → h.gone p = false → ownerOf h.files id = some p →
    h'.files.entry (.tmp id) = h.files.entry (.tmp id)
  staging : ∀ p k, ¬ W p →
    h'.files.entry (.staging p k) = h.files.entry (.staging p k)
  -- what was not under a record name before names an owner in `W`
  fresh : ∀ id e, h'.files.entry (.record id) = some e →
    h.files.entry (.record id) = some e ∨ ∃ p, W p ∧ e.2.owner = some p

section

variable {W : ProcessIdentity → Prop} {h : Host} {me : ProcessIdentity}

theorem Keeps.refl (W : ProcessIdentity → Prop) (h : Host) : Keeps W h h :=
  ⟨fun _ hg => hg, fun _ hf => ⟨hf, rfl⟩, fun _ _ _ _ _ => rfl, fun _ _ _ _ _ => rfl,
    fun _ _ _ => rfl, fun _ _ he => .inl he⟩

/-- A process ends. -/
theorem keeps_gone (W : ProcessIdentity → Prop) (h : Host) (o : ProcessIdentity) :
    Keeps W h { h with gone := Function.update h.gone o true } where
  gone p hp := by
    by_cases hpo : p = o
    · rw [hpo]
      exact Function.update_self ..
    · exact (Function.update_of_ne hpo ..).trans hp
  isSealed _ hf := ⟨hf, rfl⟩
  record _ _ _ _ _ := rfl
  tmp _ _ _ _ _ := rfl
  staging _ _ _ := rfl
  fresh _ _ he := .inl he

/-- The rule in the name of fewer processes is the stronger one. -/
theorem Keeps.mono {W' : ProcessIdentity → Prop} {h' : Host} (hW : ∀ p, W p → W' p)
    (hk : Keeps W h h') : Keeps W' h h' where
  gone := hk.gone
  isSealed := hk.isSealed
  record p id hp := hk.record p id fun hw => hp (hW p hw)
  tmp p id hp := hk.tmp p id fun hw => hp (hW p hw)
  staging p k hp := hk.staging p k fun hw => hp (hW p hw)
  fresh id e he := (hk.fresh id e he).imp_right fun ⟨p, hp, ho⟩ => ⟨p, hW p hp, ho⟩

theorem ownerOf_of_entry {files files' : StoreFiles} {id : SessionId}
    (h : files'.entry (.record id) = files.entry (.record id)) :
    ownerOf files' id = ownerOf files id := by
  rw [ownerOf, ownerOf, Files.readAt_of_entry_eq h]

theorem ownerOf_of_names {files : StoreFiles} {id : SessionId} {f : FileId}
    (h : files.names (.record id) = some f) : ownerOf files id = (files.bytes f).owner := by
  rw [ownerOf, Files.readAt_of_names h]
  rfl

theorem ownerOf_eq (files : StoreFiles) (id : SessionId) :
    ownerOf files id = (files.entry (.record id)).bind fun e => e.2.owner := by
  rw [ownerOf, Files.readAt_eq, Option.bind_map]
  rfl

theorem ownerOf_eq_some {files : StoreFiles} {id : SessionId} {o : ProcessIdentity}
    (h : ownerOf files id = some o) :
    ∃ f, files.names (.record id) = some f ∧ (files.bytes f).owner = some o := by
  obtain ⟨b, hb, ho⟩ := Option.bind_eq_some_iff.mp h
  obtain ⟨f, hf, rfl⟩ := Files.readAt_eq_some.mp hb
  exact ⟨f, hf, ho⟩

/-- The names that belong to `W` alone. -/
def Private (W : ProcessIdentity → Prop) (h : Host) : StoreName → Prop
  | .record _ => False
  | .tmp id => ∃ p, W p ∧ ownerOf h.files id = some p
  | .staging p _ => W p

theorem Private.ne_record {n : StoreName} (hn : Private W h n) (id : SessionId) :
    .record id ≠ n := by
  rintro rfl
  exact hn

theorem Private.ne_tmp {n : StoreName} (hn : Private W h n) {p : ProcessIdentity} {id : SessionId}
    (hp : ¬ W p) (ho : ownerOf h.files id = some p) : .tmp id ≠ n := by
  rintro rfl
  obtain ⟨q, hq, hoq⟩ := hn
  exact hp (Option.some.inj (ho.symm.trans hoq) ▸ hq)

theorem Private.ne_staging {n : StoreName} (hn : Private W h n) {p : ProcessIdentity} {k : Nat}
    (hp : ¬ W p) : .staging p k ≠ n := by
  rintro rfl
  exact hp hn

/-- A file under a private name is not sealed. -/
theorem Private.not_sealed {n : StoreName} (hn : Private W h n) {f : FileId}
    (hf : h.files.names n = some f) : ¬ Sealed h.files f := fun hs => by
  obtain ⟨id, rfl⟩ := hs.names n hf
  exact hn

/-- An operation that is seen under one private name only. -/
theorem keeps_private {files' : StoreFiles} {n : StoreName} (hn : Private W h n)
    (hother : ∀ m, m ≠ n → files'.entry m = h.files.entry m) (hnext : h.files.next ≤ files'.next)
    (hname : ∀ f, Sealed h.files f → files'.names n ≠ some f)
    (hbytes : ∀ f, Sealed h.files f → files'.bytes f = h.files.bytes f) :
    Keeps W h { h with files := files' } where
  gone _ hg := hg
  isSealed f hf := by
    refine ⟨⟨Nat.lt_of_lt_of_le hf.lt hnext, fun m hm => ?_⟩, hbytes f hf⟩
    by_cases hmn : m = n
    · exact absurd (hmn ▸ hm) (hname f hf)
    · exact hf.names m ((Files.names_of_entry_eq (hother m hmn)).symm.trans hm)
  record _ id _ _ _ := hother _ (hn.ne_record id)
  tmp _ _ hp _ ho := hother _ (hn.ne_tmp hp ho)
  staging _ _ hp := hother _ (hn.ne_staging hp)
  fresh id _ he := .inl ((hother _ (hn.ne_record id)).symm.trans he)

theorem keeps_create {n : StoreName} (hn : Private W h n) (b : Bytes) :
    Keeps W h { h with files := h.files.create n b } := by
  refine keeps_private hn (fun _ hm => Files.create_entry_of_ne hm) (Nat.le_succ _) ?_
    fun f hf => Files.create_bytes_of_lt hf.lt
  intro f hf hname
  rw [Files.create_names_self] at hname
  exact Nat.lt_irrefl _ (Option.some.inj hname ▸ hf.lt)

theorem keeps_write {n : StoreName} {f : FileId} (hn : Private W h n)
    (hf : h.files.names n = some f) (b : Bytes) :
    Keeps W h { h with files := h.files.write f b } := by
  refine keeps_private hn (fun _ hm => Files.write_entry_of_ne hf hm) (Nat.le_refl _) ?_ ?_
  · intro g hg hname
    exact hn.not_sealed hname hg
  · intro g hg
    refine Files.write_bytes_of_ne ?_
    rintro rfl
    exact hn.not_sealed hf hg

theorem keeps_createTruncated {n : StoreName} (hn : Private W h n) (b : Bytes) :
    Keeps W h { h with files := (h.files.createTruncated n b).1 } := by
  unfold Files.createTruncated
  split
  next f hf => exact keeps_write hn hf b
  next => exact keeps_create hn b

theorem keeps_unlink {n : StoreName} (hn : Private W h n) :
    Keeps W h { h with files := h.files.unlink n } := by
  refine keeps_private hn (fun _ hm => Files.unlink_entry_of_ne hm) (Nat.le_refl _) ?_
    fun _ _ => rfl
  intro f _ hname
  rw [Files.unlink_names_self] at hname
  cases hname

/-- A file moves from a private name to a record name that no live process
outside `W` owns, and names an owner in `W`. -/
theorem keeps_move {files' : StoreFiles} {src : StoreName} {id : SessionId} {b : Bytes}
    {o : ProcessIdentity} (hsrc : Private W h src)
    (hmove : h.files.moveReplace src (.record id) = .ok files')
    (hb : h.files.readAt src = some b) (ho : b.owner = some o) (hW : W o)
    (hdst : ∀ p, ¬ W p → h.gone p = false → ownerOf h.files id ≠ some p) :
    Keeps W h { h with files := files' } := by
  obtain ⟨f, hf, hbytes, hnext, hnames⟩ := Files.moveReplace_cases hmove
  have hother : ∀ m, m ≠ src → m ≠ .record id → files'.entry m = h.files.entry m :=
    fun m hs hd => Files.moveReplace_entry_of_ne hmove hs hd
  constructor
  case gone => exact fun _ hg => hg
  case isSealed =>
    intro g hg
    refine ⟨⟨hnext ▸ hg.lt, fun m hm => ?_⟩, by rw [hbytes]⟩
    by_cases hmd : m = .record id
    · exact ⟨id, hmd⟩
    · by_cases hms : m = src
      · rw [hms, Files.moveReplace_names_src hmove (hsrc.ne_record id).symm] at hm
        cases hm
      · exact hg.names m ((Files.names_of_entry_eq (hother m hms hmd)).symm.trans hm)
  case record =>
    intro p id' hp hg hown
    refine hother _ (hsrc.ne_record id') ?_
    rintro ⟨⟩
    exact hdst p hp hg hown
  case tmp =>
    intro p id' hp _ hown
    exact hother _ (hsrc.ne_tmp hp hown) nofun
  case staging =>
    intro p k hp
    exact hother _ (hsrc.ne_staging hp) nofun
  case fresh =>
    intro id' e he
    by_cases hid : id' = id
    · rw [hid, Files.moveReplace_entry_dst hmove] at he
      rw [Files.readAt_eq, he] at hb
      exact .inr ⟨o, hW, (congrArg Bytes.owner (Option.some.inj hb)).trans ho⟩
    · have hne : StoreName.record id' ≠ .record id := fun heq => hid (StoreName.record.inj heq)
      exact .inl ((hother _ (hsrc.ne_record id') hne).symm.trans he)

/-- A sealed file goes whose owner is in `W` or has ended. -/
theorem keeps_delete {f : FileId} {o : ProcessIdentity} (hs : Sealed h.files f)
    (ho : (h.files.bytes f).owner = some o) (hW : W o ∨ h.gone o = true) :
    Keeps W h { h with files := h.files.delete f } := by
  have hother : ∀ n, (∀ id, n ≠ .record id) → (h.files.delete f).entry n = h.files.entry n := by
    intro n hn
    refine Files.delete_entry_of_ne fun hname => ?_
    obtain ⟨id, rfl⟩ := hs.names n hname
    exact hn id rfl
  have hrecord : ∀ p id, ownerOf h.files id = some p → p ≠ o →
      (h.files.delete f).entry (.record id) = h.files.entry (.record id) := by
    intro p id hp hne
    refine Files.delete_entry_of_ne fun hname => hne ?_
    rw [ownerOf_of_names hname, ho] at hp
    exact (Option.some.inj hp).symm
  constructor
  case gone => exact fun _ hg => hg
  case isSealed =>
    intro g hg
    refine ⟨⟨hg.lt, fun n hn => hg.names n ?_⟩, rfl⟩
    rw [Files.delete_names_eq] at hn
    split at hn
    · cases hn
    · exact hn
  case record =>
    intro p id hp hlive hown
    refine hrecord p id hown ?_
    rintro rfl
    rcases hW with hw | hg
    · exact hp hw
    · rw [hlive] at hg
      cases hg
  case tmp => exact fun _ _ _ _ _ => hother _ nofun
  case staging => exact fun _ _ _ => hother _ nofun
  case fresh => exact fun id e he => .inl (Files.entry_of_delete he)

end

/-! ## What a process knows -/

/-- The record names the process and the id it is published for. -/
def Own (me : ProcessIdentity) (id : SessionId) (record : SessionRecord) : Prop :=
  record.id = id ∧ record.supervisor = me

/-- Inside `publish`, the temporary name is this process's. -/
def PublishOk (me : ProcessIdentity) (id : SessionId) (files : StoreFiles) : Publishing → Prop
  | .create record => Own me id record
  | .created record tmp => Own me id record ∧ files.names (.tmp id) = some tmp
  | .written record =>
    Own me id record ∧ files.readAt (.tmp id) = some (.stored (.published record))

/-- Inside `delete_owned_by`, for an owner that `R` allows to delete. -/
def DeleteOk (R : ProcessIdentity → Prop) (files : StoreFiles) : Deleting → Prop
  | .open _ owner => R owner
  | .opened file owner => R owner ∧ Sealed files file
  | .owned file owner => R owner ∧ Sealed files file ∧ (files.bytes file).owner = some owner

/-- What the main thread of a live process knows. -/
def MainOk (me : ProcessIdentity) (files : StoreFiles) : Supervising → Prop
  | .idle | .removing _ | .ended => True
  | .staging attempt file => files.names (.staging me attempt) = some file
  | .installing attempt _ =>
    files.readAt (.staging me attempt) = some (.stored (.reserved me))
  | .publishing id at_ => ownerOf files id = some me ∧ PublishOk me id files at_
  | .published id | .serving id | .joining id => ownerOf files id = some me
  | .deleting id at_ => ownerOf files id = some me ∧ DeleteOk (· = me) files at_

/-- The record writer works while `main` serves. -/
def Supervising.Serves (id : SessionId) : Supervising → Prop
  | .serving id' | .joining id' => id' = id
  | _ => False

/-- The path through the store is over but for the deletion. -/
def Supervising.Closing : Supervising → Prop
  | .joining _ | .deleting .. | .ended => True
  | _ => False

/-- What the record writer of a live process knows. -/
def RecorderOk (me : ProcessIdentity) (files : StoreFiles) (main : Supervising) :
    Recording → Prop
  | .unstarted => True
  | .waiting id | .reading id _ => main.Serves id
  | .publishing id at_ => main.Serves id ∧ PublishOk me id files at_
  | .finished => main.Closing

/-- What a client command knows: whoever it deletes for has ended. -/
def CommandOk (h : Host) : Commanding → Prop
  | .dropping at_ _ _ | .releasing at_ _ _ | .removing at_ =>
    DeleteOk (fun o => h.gone o = true) h.files at_
  | _ => True

/-- What the threads of a live process know. -/
structure StoreFits (me : ProcessIdentity) (pc : Process) (h : Host) : Prop where
  main : MainOk me h.files pc.main
  recorder : RecorderOk me h.files pc.main pc.recorder
  stop : .stop ∈ pc.updates → pc.main.Closing
  command : CommandOk h pc.command

theorem MainOk.owner {me : ProcessIdentity} {files : StoreFiles} {main : Supervising}
    {id : SessionId} (h : MainOk me files main) (hs : main.session = some id) :
    ownerOf files id = some me := by
  cases main with
  | idle => cases hs
  | staging attempt file => cases hs
  | installing attempt id => cases hs
  | removing attempt => cases hs
  | ended => cases hs
  | publishing id at_ => exact Option.some.inj hs ▸ h.1
  | published id => exact Option.some.inj hs ▸ h
  | serving id => exact Option.some.inj hs ▸ h
  | joining id => exact Option.some.inj hs ▸ h
  | deleting id at_ => exact Option.some.inj hs ▸ h.1

theorem Supervising.Serves.owner {me : ProcessIdentity} {files : StoreFiles} {main : Supervising}
    {id : SessionId} (hs : main.Serves id) (h : MainOk me files main) :
    ownerOf files id = some me := by
  cases main with
  | serving id' => exact hs ▸ h
  | joining id' => exact hs ▸ h
  | _ => exact hs.elim

/-! ## It survives what the others do -/

section

variable {W : ProcessIdentity → Prop} {h h' : Host} {me : ProcessIdentity}

theorem Keeps.ownerOf (hk : Keeps W h h') {p : ProcessIdentity} (hp : ¬ W p)
    (hg : h.gone p = false) {id : SessionId} (ho : ownerOf h.files id = some p) :
    ownerOf h'.files id = some p :=
  (ownerOf_of_entry (hk.record p id hp hg ho)).trans ho

theorem PublishOk.keeps (hk : Keeps W h h') (hme : ¬ W me) (hg : h.gone me = false)
    {id : SessionId} (ho : ownerOf h.files id = some me) {at_ : Publishing}
    (hok : PublishOk me id h.files at_) : PublishOk me id h'.files at_ := by
  have htmp := hk.tmp me id hme hg ho
  cases at_ with
  | create record => exact hok
  | created record tmp => exact ⟨hok.1, (Files.names_of_entry_eq htmp).trans hok.2⟩
  | written record => exact ⟨hok.1, (Files.readAt_of_entry_eq htmp).trans hok.2⟩

theorem DeleteOk.keeps (hk : Keeps W h h') {R R' : ProcessIdentity → Prop}
    (hR : ∀ o, R o → R' o) {at_ : Deleting} (hok : DeleteOk R h.files at_) :
    DeleteOk R' h'.files at_ := by
  cases at_ with
  | «open» id owner => exact hR _ hok
  | opened file owner => exact ⟨hR _ hok.1, (hk.isSealed file hok.2).1⟩
  | owned file owner =>
    obtain ⟨hs, hb⟩ := hk.isSealed file hok.2.1
    exact ⟨hR _ hok.1, hs, hb ▸ hok.2.2⟩

theorem MainOk.keeps (hk : Keeps W h h') (hme : ¬ W me) (hg : h.gone me = false)
    {main : Supervising} (hok : MainOk me h.files main) : MainOk me h'.files main := by
  have howner : ∀ {id}, Folo.Dure.ownerOf h.files id = some me →
      Folo.Dure.ownerOf h'.files id = some me := fun ho => hk.ownerOf hme hg ho
  cases main with
  | idle => trivial
  | removing attempt => trivial
  | ended => trivial
  | staging attempt file => exact (Files.names_of_entry_eq (hk.staging me attempt hme)).trans hok
  | installing attempt id =>
    exact (Files.readAt_of_entry_eq (hk.staging me attempt hme)).trans hok
  | publishing id at_ => exact ⟨howner hok.1, hok.2.keeps hk hme hg hok.1⟩
  | published id => exact howner hok
  | serving id => exact howner hok
  | joining id => exact howner hok
  | deleting id at_ => exact ⟨howner hok.1, hok.2.keeps hk fun _ ho => ho⟩

theorem RecorderOk.keeps (hk : Keeps W h h') (hme : ¬ W me) (hg : h.gone me = false)
    {main : Supervising} (hmain : MainOk me h.files main) {recorder : Recording}
    (hok : RecorderOk me h.files main recorder) : RecorderOk me h'.files main recorder := by
  cases recorder with
  | publishing id at_ => exact ⟨hok.1, hok.2.keeps hk hme hg (hok.1.owner hmain)⟩
  | _ => exact hok

/-- A command knows nothing that a live process's own step could change. -/
theorem CommandOk.keeps (hk : Keeps W h h') {command : Commanding}
    (hok : CommandOk h command) : CommandOk h' command := by
  cases command with
  | dropping at_ rest live => exact DeleteOk.keeps hk hk.gone hok
  | releasing at_ rest live => exact DeleteOk.keeps hk hk.gone hok
  | removing at_ => exact DeleteOk.keeps hk hk.gone hok
  | _ => trivial

theorem StoreFits.keeps (hk : Keeps W h h') (hme : ¬ W me) (hg : h.gone me = false) {pc : Process}
    (hfit : StoreFits me pc h) : StoreFits me pc h' :=
  ⟨hfit.main.keeps hk hme hg, hfit.recorder.keeps hk hme hg hfit.main, hfit.stop,
    hfit.command.keeps hk⟩

end

/-! ## One step -/

section

variable {W : ProcessIdentity → Prop} {h : Host} {me : ProcessIdentity}

/-- One access of `publish` by the owner of the id. -/
theorem publish_spec {id : SessionId} {at_ : Publishing} (ok : Bool)
    (howner : ownerOf h.files id = some me) (hok : PublishOk me id h.files at_) :
    Keeps (· = me) h { h with files := (publish h.files at_ ok).1 } ∧
    ownerOf (publish h.files at_ ok).1 id = some me ∧
    ∀ at_', (publish h.files at_ ok).2 = .running at_' →
      PublishOk me id (publish h.files at_ ok).1 at_' := by
  have htmp : Private (· = me) h (.tmp id) := ⟨me, rfl, howner⟩
  cases at_ with
  | create record =>
    obtain ⟨rfl, hme⟩ := hok
    cases ok with
    | false => exact ⟨Keeps.refl _ _, howner, nofun⟩
    | true =>
      refine ⟨keeps_createTruncated htmp _, ?_, ?_⟩
      · rw [← howner]
        refine ownerOf_of_entry ?_
        simp only [publish, Files.createTruncated]
        split
        next f hf => exact Files.write_entry_of_ne hf nofun
        next => exact Files.create_entry_of_ne nofun
      · rintro _ ⟨⟩
        refine ⟨⟨rfl, hme⟩, ?_⟩
        simp only [publish, Files.createTruncated]
        split
        next f hf => exact hf
        next => exact Files.create_names_self
  | created record tmp =>
    obtain ⟨hrec, hname⟩ := hok
    have hkeep : ∀ b, Keeps (· = me) h { h with files := h.files.write tmp b } :=
      keeps_write htmp hname
    have hown : ∀ b, ownerOf (h.files.write tmp b) id = some me := fun b =>
      (ownerOf_of_entry (Files.write_entry_of_ne hname nofun)).trans howner
    cases ok with
    | false => exact ⟨hkeep _, hown _, nofun⟩
    | true =>
      refine ⟨hkeep _, hown _, ?_⟩
      rintro _ ⟨⟩
      refine ⟨hrec, ?_⟩
      have hname' : (h.files.write tmp (.stored (.published record))).names (.tmp id) = some tmp :=
        hname
      exact (Files.readAt_of_names hname').trans (congrArg some Files.write_bytes_self)
  | written record =>
    obtain ⟨⟨rfl, hme⟩, hread⟩ := hok
    cases ok with
    | false => exact ⟨Keeps.refl _ _, howner, nofun⟩
    | true =>
      simp only [publish]
      split
      next files' hmove =>
        refine ⟨keeps_move htmp hmove hread rfl hme ?_, ?_, nofun⟩
        · intro p hp _ ho
          exact hp (Option.some.inj (ho.symm.trans howner))
        · rw [ownerOf, Files.readAt_eq, Files.moveReplace_entry_dst hmove, ← Files.readAt_eq, hread]
          exact congrArg some hme
      next => exact ⟨Keeps.refl _ _, howner, nofun⟩

/-- One access of `delete_owned_by` for an owner in `W` or one that has
ended. -/
theorem deleteOwnedBy_spec {R : ProcessIdentity → Prop} (hR : ∀ o, R o → W o ∨ h.gone o = true)
    {at_ : Deleting} (ok : Bool) (hok : DeleteOk R h.files at_) :
    Keeps W h { h with files := (deleteOwnedBy h.files at_ ok).1 } ∧
    ∀ at_', (deleteOwnedBy h.files at_ ok).2 = .running at_' →
      (deleteOwnedBy h.files at_ ok).1 = h.files ∧ DeleteOk R h.files at_' := by
  cases ok with
  | false =>
    cases at_ <;> exact ⟨Keeps.refl _ _, nofun⟩
  | true =>
    cases at_ with
    | «open» id owner =>
      simp only [deleteOwnedBy]
      split
      next file hfile =>
        refine ⟨Keeps.refl _ _, ?_⟩
        rintro _ ⟨⟩
        exact ⟨rfl, hok, sealed_of_record hfile⟩
      next => exact ⟨Keeps.refl _ _, nofun⟩
    | opened file owner =>
      simp only [deleteOwnedBy]
      split
      next howned =>
        refine ⟨Keeps.refl _ _, ?_⟩
        rintro _ ⟨⟩
        exact ⟨rfl, hok.1, hok.2, deleteIfOwned_iff.mp howned⟩
      next => exact ⟨Keeps.refl _ _, nofun⟩
    | owned file owner =>
      obtain ⟨hr, hs, ho⟩ := hok
      exact ⟨keeps_delete hs ho (hR _ hr), nofun⟩

end

end Folo.Dure
