import Folo.BenchHistory.CacheHistory

/-!
# When the cache is coherent

`synchronize` makes a mirror clean for the marker it read: whatever is in it
was fetched after every flush behind that marker, or is the cloud store's
still (`Clean`, `Guarded`). Deleting keeps a mirror clean, and so does a
`get` that puts there what the cloud store still holds, or what it fetched
after the mirror was last listed for a wipe (`timely`). A run of such steps
is coherent (`cache_coherent`). A `get` that fetched before another process's
wipe and populates the mirror after it puts back what the wipe was for:
`stale_after_wipe` is a run in which a reader then gets the old bytes although
the overwriting command had flushed before the reader began.
-/

namespace Folo.BenchHistory

open Folo.Lib Folo.Lib.Machine

variable {R D W : Type}

/-! ## Clean mirrors -/

/-- The project's objects in the mirror, but for those in `todo`, are not
superseded by position `n`. -/
def Clean (log : CloudLog W) (mirror : Objects) (project : Key) (n : Nat) (todo : List Key) :
    Prop :=
  ∀ key bytes, IsObject project key → key ∉ todo → mirror.lookup key = some bytes →
    Current log n key bytes

/-- The project's flushes before position `n` all came before the mirror was
last listed. -/
def FlushesListed (log : CloudLog W) (listing : Nat) (project : Key) (n : Nat) : Prop :=
  ∀ (j : Nat) (c : CloudChange W), j < n → log[j]? = some c →
    c.key = cacheEpochKey project → j < listing

/-- The mirror is as good as wiped at position `n`. -/
structure Guarded (log : CloudLog W) (mirror : Objects) (listing : Nat) (project : Key) (n : Nat) :
    Prop where
  le : n ≤ log.length
  listed : FlushesListed log listing project n
  clean : Clean log mirror project n []

/-- A reader has read the marker. -/
structure EpochRead (log : CloudLog W) (project : Key) (began read : Nat) (epoch : Bytes) :
    Prop where
  began : began ≤ read
  le : read ≤ log.length
  epoch : epochAt log read project = epoch

/-- What `synchronize` knows of the reader's mirror. -/
def SyncOk (log : CloudLog W) (mirror : Objects) (listing : Nat) (project : Key)
    (began read : Nat) : Synchronizing → Prop
  | .idle | .failed => True
  | .started => began ≤ log.length
  | .epochRead epoch | .listing epoch => EpochRead log project began read epoch
  | .wiping epoch todo =>
    EpochRead log project began read epoch ∧ read ≤ listing ∧ Clean log mirror project read todo
  | .synchronized => began ≤ read ∧ Guarded log mirror listing project read

/-- What a `get` knows. -/
def GetOk (log : CloudLog W) (project : Key) (began fetched : Nat) (sync : Synchronizing) :
    Getting → Prop
  | .idle | .failed _ => True
  | .lookup key | .fetch key => sync = .synchronized ∧ IsObject project key
  | .populate key bytes =>
    sync = .synchronized ∧ IsObject project key ∧ began ≤ fetched ∧ fetched ≤ log.length ∧
      valueAt (log.take fetched) key = some bytes
  | .returned key bytes => sync = .synchronized ∧ Current log began key bytes

/-- The invariant of all readers and mirrors. -/
structure CacheInv (sys : Deployment R D W) (s : World R D W) (m : History R D W) : Prop where
  log : LogOk sys s.cloud s.writers s.tokens m.log
  listing : ∀ d pre, m.listing d pre ≤ m.log.length
  sync : ∀ r, SyncOk m.log (s.mirrors (sys.mirror r))
    (m.listing (sys.mirror r) (projectObjectsPrefix (sys.readerProject r))) (sys.readerProject r)
    (m.began r) (m.read r) (s.readers r).sync
  gets : ∀ r task, GetOk m.log (sys.readerProject r) (m.began r) (m.fetched r task)
    (s.readers r).sync ((s.readers r).gets task)
  recorded : ∀ d project epoch,
    (s.mirrors d).lookup (cacheEpochKey project) = some epoch →
    ∃ n, epochAt m.log n project = epoch ∧
      Guarded m.log (s.mirrors d) (m.listing d (projectObjectsPrefix project)) project n

/-! ## What later steps leave clean -/

/-- The log grows, the mirror is listed again, and what is new in the mirror
is not superseded wherever the mirror was guarded. -/
structure Later (project : Key) (log : CloudLog W) (mirror : Objects) (listing : Nat)
    (log' : CloudLog W) (mirror' : Objects) (listing' : Nat) : Prop where
  grows : log <+: log'
  relisted : listing ≤ listing'
  covered : ∀ n, n ≤ log.length → FlushesListed log listing project n → ∀ key bytes,
    IsObject project key → mirror'.lookup key = some bytes →
      mirror.lookup key = some bytes ∨ Current log' n key bytes

section

variable {log log' : CloudLog W} {mirror mirror' : Objects} {listing listing' : Nat}
  {project key : Key} {bytes epoch : Bytes} {n began read fetched : Nat} {todo : List Key}

theorem FlushesListed.of_le (h : n ≤ listing) : FlushesListed log listing project n :=
  fun _ _ hj _ _ => Nat.lt_of_lt_of_le hj h

theorem Clean.later (hl : Later project log mirror listing log' mirror' listing')
    (hn : n ≤ log.length) (hlisted : FlushesListed log listing project n)
    (h : Clean log mirror project n todo) : Clean log' mirror' project n todo := by
  intro key bytes hobj hnot hlook
  rcases hl.covered n hn hlisted key bytes hobj hlook with hold | hnew
  · exact (h key bytes hobj hnot hold).of_isPrefix hl.grows hn
  · exact hnew

theorem FlushesListed.later (hl : Later project log mirror listing log' mirror' listing')
    (hn : n ≤ log.length) (h : FlushesListed log listing project n) :
    FlushesListed log' listing' project n := by
  intro j c hj hc hk
  rw [getElem?_of_isPrefix hl.grows (Nat.lt_of_lt_of_le hj hn)] at hc
  exact Nat.lt_of_lt_of_le (h j c hj hc hk) hl.relisted

theorem Guarded.later (hl : Later project log mirror listing log' mirror' listing')
    (h : Guarded log mirror listing project n) : Guarded log' mirror' listing' project n where
  le := Nat.le_trans h.le hl.grows.length_le
  listed := h.listed.later hl h.le
  clean := h.clean.later hl h.le h.listed

theorem EpochRead.of_isPrefix (hlog : log <+: log') (h : EpochRead log project began read epoch) :
    EpochRead log' project began read epoch where
  began := h.began
  le := Nat.le_trans h.le hlog.length_le
  epoch := (epochAt_of_isPrefix hlog h.le project).trans h.epoch

theorem SyncOk.later (hl : Later project log mirror listing log' mirror' listing')
    {sync : Synchronizing} (h : SyncOk log mirror listing project began read sync) :
    SyncOk log' mirror' listing' project began read sync := by
  cases sync with
  | idle => trivial
  | failed => trivial
  | started => exact Nat.le_trans h hl.grows.length_le
  | epochRead epoch => exact EpochRead.of_isPrefix hl.grows h
  | listing epoch => exact EpochRead.of_isPrefix hl.grows h
  | wiping epoch todo =>
    obtain ⟨hread, hle, hclean⟩ := h
    exact ⟨hread.of_isPrefix hl.grows, Nat.le_trans hle hl.relisted,
      hclean.later hl hread.le (.of_le hle)⟩
  | synchronized => exact ⟨h.1, h.2.later hl⟩

theorem GetOk.of_isPrefix (hlog : log <+: log') {sync : Synchronizing} {getting : Getting}
    (hbegan : sync = .synchronized → began ≤ log.length)
    (h : GetOk log project began fetched sync getting) :
    GetOk log' project began fetched sync getting := by
  cases getting with
  | idle => trivial
  | failed key => trivial
  | lookup key => exact h
  | fetch key => exact h
  | populate key bytes =>
    obtain ⟨hsync, hobj, hle, hlen, hval⟩ := h
    refine ⟨hsync, hobj, hle, Nat.le_trans hlen hlog.length_le, ?_⟩
    rw [take_of_isPrefix hlog hlen]
    exact hval
  | returned key bytes => exact ⟨h.1, h.2.of_isPrefix hlog (hbegan h.1)⟩

theorem Later.of_log (hlog : log <+: log') :
    Later project log mirror listing log' mirror listing where
  grows := hlog
  relisted := Nat.le_refl _
  covered _ _ _ _ _ _ hlook := .inl hlook

/-- The mirror loses objects, and is listed. -/
theorem Later.of_subset (hle : listing ≤ listing')
    (hsub : ∀ key bytes, IsObject project key → mirror'.lookup key = some bytes →
      mirror.lookup key = some bytes) :
    Later project log mirror listing log mirror' listing' where
  grows := List.prefix_refl _
  relisted := hle
  covered _ _ _ key bytes hobj hlook := .inl (hsub key bytes hobj hlook)

theorem lookup_of_lookup_erase {k : Key} (h : (mirror.erase k).lookup key = some bytes) :
    mirror.lookup key = some bytes := by
  rw [← lookup_erase_eq] at h
  split at h
  · cases h
  · exact h

/-- A marker is not among the objects. -/
theorem lookup_insert_marker {other : Key} (hobj : IsObject project key) :
    (mirror.insert (cacheEpochKey other) epoch).lookup key = mirror.lookup key := by
  rw [← lookup_insert_eq]
  refine if_neg ?_
  rintro rfl
  exact marker_not_object _ _ hobj

variable {sys : Deployment R D W} {cloud : Objects} {writers : W → Writer} {tokens : List Bytes}

/-- A `get` puts an object there that the cloud store still holds, or that it
fetched after the mirror was last listed. -/
theorem Later.of_populate (hok : LogOk sys cloud writers tokens log)
    (hlen : fetched ≤ log.length) (hval : valueAt (log.take fetched) key = some bytes)
    (htimely : IsObject project key → cloud.lookup key = some bytes ∨ listing ≤ fetched) :
    Later project log mirror listing log (mirror.insert key bytes) listing where
  grows := List.prefix_refl _
  relisted := Nat.le_refl _
  covered n hn hlisted k b hobj hlook := by
    rw [← lookup_insert_eq] at hlook
    split at hlook
    next hk =>
      subst hk
      obtain rfl := Option.some.inj hlook
      rcases htimely hobj with hcloud | hle
      · -- it is the cloud store's still
        refine .inr ⟨log.length, Nat.le_refl _, ?_, not_superseded_of_le hn⟩
        rw [List.take_length, hok.cloud]
        exact hcloud
      · -- the flushes that count were there when it was fetched
        refine .inr ⟨fetched, hlen, hval, ?_⟩
        rintro ⟨w, i, j, c, d, hfi, hi, hj, hc, hd, hca, hck, hda⟩
        have hkey := hok.flush_key hc hd hca hda (hck ▸ hobj)
        have hlt := hlisted j d hj hd hkey
        have hij := hok.order i j c d w hc hd hca hda
        omega
    next hk => exact .inl hlook

/-- Two equal markers have the same flushes behind them, so what is guarded
at the one is guarded at the other. -/
theorem Guarded.of_epoch (hok : LogOk sys cloud writers tokens log)
    (h : Guarded log mirror listing project n) (hread : read ≤ log.length)
    (hepoch : epochAt log n project = epochAt log read project) :
    Guarded log mirror listing project read where
  le := hread
  listed j c hj hc hk := h.listed j c (hok.lt_of_epochAt_eq hepoch.symm hc hk hj) hc hk
  clean key bytes hobj hnot hlook := by
    obtain ⟨f, hf, hval, hsup⟩ := h.clean key bytes hobj hnot hlook
    refine ⟨f, hf, hval, fun hs => hsup ?_⟩
    obtain ⟨w, i, j, c, d, hfi, hi, hj, hc, hd, hca, hck, hda⟩ := hs
    have hjn := hok.lt_of_epochAt_eq hepoch.symm hd
      (hok.flush_key hc hd hca hda (hck ▸ hobj)) hj
    have hij := hok.order i j c d w hc hd hca hda
    exact ⟨w, i, j, c, d, hfi, by omega, hjn, hc, hd, hca, hck, hda⟩

/-- Only the sanitized name of a project matters. -/
theorem Guarded.of_sanitized {other : Key} (hsan : sanitizeSegment project = sanitizeSegment other)
    (h : Guarded log mirror listing project n) : Guarded log mirror listing other n where
  le := h.le
  listed j c hj hc hk := by
    refine h.listed j c hj hc ?_
    rw [hk, cacheEpochKey, cacheEpochKey, hsan]
  clean key bytes hobj hnot hlook := by
    refine h.clean key bytes ?_ hnot hlook
    unfold IsObject projectObjectsPrefix at hobj ⊢
    rw [hsan]
    exact hobj

end

/-! ## Steps -/

section

variable [DecidableEq R] [DecidableEq D] {sys : Deployment R D W} {s : World R D W}
  {m : History R D W}

/-- A step of a reader: what it must show of its mirror and of itself. -/
theorem CacheInv.reader (h : CacheInv sys s m) (r : R) {mirror' : Objects} {reader' : Reader}
    {m' : History R D W} (hlog : m'.log = m.log)
    (hbegan : ∀ r', r' ≠ r → m'.began r' = m.began r')
    (hread : ∀ r', r' ≠ r → m'.read r' = m.read r')
    (hfetched : ∀ r', r' ≠ r → m'.fetched r' = m.fetched r')
    (hlisting : ∀ d, d ≠ sys.mirror r → m'.listing d = m.listing d)
    (hlisted : ∀ pre, m'.listing (sys.mirror r) pre ≤ m.log.length)
    (hlater : ∀ project, Later project m.log (s.mirrors (sys.mirror r))
      (m.listing (sys.mirror r) (projectObjectsPrefix project)) m.log mirror'
      (m'.listing (sys.mirror r) (projectObjectsPrefix project)))
    (hsync : SyncOk m.log mirror'
      (m'.listing (sys.mirror r) (projectObjectsPrefix (sys.readerProject r)))
      (sys.readerProject r) (m'.began r) (m'.read r) reader'.sync)
    (hgets : ∀ task, GetOk m.log (sys.readerProject r) (m'.began r) (m'.fetched r task)
      reader'.sync (reader'.gets task))
    (hrecorded : ∀ project epoch, mirror'.lookup (cacheEpochKey project) = some epoch →
      (s.mirrors (sys.mirror r)).lookup (cacheEpochKey project) = some epoch ∨
      ∃ n, epochAt m.log n project = epoch ∧ Guarded m.log mirror'
        (m'.listing (sys.mirror r) (projectObjectsPrefix project)) project n) :
    CacheInv sys
      { s with
        mirrors := Function.update s.mirrors (sys.mirror r) mirror'
        readers := Function.update s.readers r reader' } m' where
  log := hlog ▸ h.log
  listing d pre := by
    rw [hlog]
    by_cases hd : d = sys.mirror r
    · exact hd ▸ hlisted pre
    · rw [hlisting d hd]
      exact h.listing d pre
  sync r' := by
    dsimp only
    by_cases hr : r' = r
    · subst hr
      rw [Function.update_self, Function.update_self, hlog]
      exact hsync
    · rw [Function.update_of_ne hr, hlog, hbegan r' hr, hread r' hr]
      by_cases hd : sys.mirror r' = sys.mirror r
      · rw [hd, Function.update_self]
        exact (hd ▸ h.sync r').later (hlater _)
      · rw [Function.update_of_ne hd, hlisting _ hd]
        exact h.sync r'
  gets r' task := by
    dsimp only
    by_cases hr : r' = r
    · subst hr
      rw [Function.update_self, hlog]
      exact hgets task
    · rw [Function.update_of_ne hr, hlog, hbegan r' hr, hfetched r' hr]
      exact h.gets r' task
  recorded d project epoch hlook := by
    dsimp only at hlook ⊢
    by_cases hd : d = sys.mirror r
    · subst hd
      rw [Function.update_self] at hlook ⊢
      rw [hlog]
      rcases hrecorded project epoch hlook with hold | hnew
      · obtain ⟨n, hepoch, hguard⟩ := h.recorded _ project epoch hold
        exact ⟨n, hepoch, hguard.later (hlater project)⟩
      · exact hnew
    · rw [Function.update_of_ne hd] at hlook ⊢
      rw [hlog, hlisting d hd]
      exact h.recorded d project epoch hlook

/-- One step of `synchronize`. -/
theorem CacheInv.sync_step (h : CacheInv sys s m) (r : R) {ok : Bool} {s' : World R D W}
    (hs : readerStep sys s r (.sync ok) = some s') :
    CacheInv sys s' ((history sys).update m s (.inl (r, .sync ok)) s') := by
  obtain ⟨step, hstep, rfl⟩ := Option.map_eq_some_iff.mp hs
  have hsame : ∀ project, Later project m.log (s.mirrors (sys.mirror r))
      (m.listing (sys.mirror r) (projectObjectsPrefix project)) m.log (s.mirrors (sys.mirror r))
      (m.listing (sys.mirror r) (projectObjectsPrefix project)) := fun project =>
    .of_log (List.prefix_refl _)
  have hsync := h.sync r
  -- a `get` runs only after `synchronize`, so no other place of it matters to one
  have hgets : (s.readers r).sync ≠ .synchronized → ∀ began (fetched : Nat → Nat) sync task,
      GetOk m.log (sys.readerProject r) began (fetched task) sync ((s.readers r).gets task) := by
    intro hne began fetched sync task
    have hget := h.gets r task
    cases hg : (s.readers r).gets task with
    | idle => trivial
    | failed key => trivial
    | lookup key => rw [hg] at hget; exact absurd hget.1 hne
    | fetch key => rw [hg] at hget; exact absurd hget.1 hne
    | populate key bytes => rw [hg] at hget; exact absurd hget.1 hne
    | returned key bytes => rw [hg] at hget; exact absurd hget.1 hne
  have hfail : (s.readers r).sync ≠ .synchronized → CacheInv sys
      { s with
        mirrors := Function.update s.mirrors (sys.mirror r) (s.mirrors (sys.mirror r))
        readers := Function.update s.readers r { s.readers r with sync := .failed } } m :=
    fun hne => h.reader r rfl (fun _ _ => rfl) (fun _ _ => rfl) (fun _ _ => rfl) (fun _ _ => rfl)
      (h.listing _) hsame trivial (hgets hne _ _ _) fun _ _ hl => .inl hl
  cases hplace : (s.readers r).sync with
  | idle =>
    rw [hplace] at hstep hsync hgets
    obtain rfl := Option.some.inj hstep
    simp only [history, hplace]
    refine h.reader r rfl (fun _ hr => Function.update_of_ne hr ..) (fun _ _ => rfl)
      (fun _ _ => rfl) (fun _ _ => rfl) (h.listing _) hsame ?_ (hgets (by rintro ⟨⟩) _ _ _)
      fun _ _ hl => .inl hl
    exact Nat.le_of_eq (Function.update_self ..)
  | started =>
    rw [hplace] at hstep hsync hgets hfail
    cases ok with
    | false =>
      obtain rfl := Option.some.inj hstep
      simp only [history, hplace]
      exact hfail (by rintro ⟨⟩)
    | true =>
      obtain rfl := Option.some.inj hstep
      simp only [history, hplace]
      refine h.reader r rfl (fun _ _ => rfl) (fun _ hr => Function.update_of_ne hr ..)
        (fun _ _ => rfl) (fun _ _ => rfl) (h.listing _) hsame ?_ (hgets (by rintro ⟨⟩) _ _ _)
        fun _ _ hl => .inl hl
      dsimp only
      rw [Function.update_self]
      refine ⟨hsync, Nat.le_refl _, ?_⟩
      rw [epochAt, List.take_length, h.log.cloud]
  | epochRead epoch =>
    rw [hplace] at hstep hsync hgets hfail
    cases ok with
    | false =>
      obtain rfl := Option.some.inj hstep
      simp only [history, hplace]
      exact hfail (by rintro ⟨⟩)
    | true =>
      simp only [history, hplace]
      simp only [syncStep] at hstep
      split at hstep
      next hrec =>
        obtain rfl := Option.some.inj hstep
        -- the mirror was recorded clean for this very marker
        obtain ⟨n, hepoch, hguard⟩ := h.recorded _ _ _ hrec
        refine h.reader r rfl (fun _ _ => rfl) (fun _ _ => rfl) (fun _ _ => rfl) (fun _ _ => rfl)
          (h.listing _) hsame ⟨hsync.began, ?_⟩ (hgets (by rintro ⟨⟩) _ _ _) fun _ _ hl => .inl hl
        exact hguard.of_epoch h.log hsync.le (hepoch.trans hsync.epoch.symm)
      next =>
        obtain rfl := Option.some.inj hstep
        exact h.reader r rfl (fun _ _ => rfl) (fun _ _ => rfl) (fun _ _ => rfl) (fun _ _ => rfl)
          (h.listing _) hsame hsync (hgets (by rintro ⟨⟩) _ _ _) fun _ _ hl => .inl hl
  | listing epoch =>
    rw [hplace] at hstep hsync hgets hfail
    cases ok with
    | false =>
      obtain rfl := Option.some.inj hstep
      simp only [history, hplace]
      exact hfail (by rintro ⟨⟩)
    | true =>
      obtain rfl := Option.some.inj hstep
      simp only [history, hplace]
      have hself : ∀ pre, Function.update m.listing (sys.mirror r)
          (Function.update (m.listing (sys.mirror r))
            (projectObjectsPrefix (sys.readerProject r)) m.log.length) (sys.mirror r) pre =
          if pre = projectObjectsPrefix (sys.readerProject r) then m.log.length
          else m.listing (sys.mirror r) pre := by
        intro pre
        rw [Function.update_self, Function.update_apply]
      refine h.reader r rfl (fun _ _ => rfl) (fun _ _ => rfl) (fun _ _ => rfl)
        (fun _ hd => Function.update_of_ne hd ..) ?_ ?_ ?_ (hgets (by rintro ⟨⟩) _ _ _)
        fun _ _ hl => .inl hl
      · intro pre
        dsimp only
        rw [hself]
        split
        · exact Nat.le_refl _
        · exact h.listing _ _
      · intro project
        refine .of_subset ?_ fun _ _ _ hl => hl
        dsimp only
        rw [hself]
        split
        · exact h.listing _ _
        · exact Nat.le_refl _
      · refine ⟨hsync, ?_, ?_⟩
        · dsimp only
          rw [hself, if_pos rfl]
          exact hsync.le
        · -- every object of the project is listed
          intro key bytes hobj hnot hlook
          refine absurd ?_ hnot
          rw [Objects.list, List.mem_insertionSort, List.mem_filter]
          have hmem : key ∈ s.mirrors (sys.mirror r) :=
            AList.lookup_isSome.mp (Option.isSome_of_eq_some hlook)
          exact ⟨AList.mem_keys.mp hmem, List.isPrefixOf_iff_prefix.mpr hobj⟩
  | wiping epoch todo =>
    rw [hplace] at hstep hsync hgets hfail
    obtain ⟨hread, hle, hclean⟩ := hsync
    cases ok with
    | false =>
      cases todo <;>
      · obtain rfl := Option.some.inj hstep
        simp only [history, hplace]
        exact hfail (by rintro ⟨⟩)
    | true =>
      simp only [history, hplace]
      cases todo with
      | nil =>
        obtain rfl := Option.some.inj hstep
        have hinsert : ∀ {project key bytes}, IsObject project key →
            ((s.mirrors (sys.mirror r)).insert (cacheEpochKey (sys.readerProject r)) epoch).lookup
              key = some bytes → (s.mirrors (sys.mirror r)).lookup key = some bytes :=
          fun hobj hl => (lookup_insert_marker hobj).symm.trans hl
        have hguard : Guarded m.log
            ((s.mirrors (sys.mirror r)).insert (cacheEpochKey (sys.readerProject r)) epoch)
            (m.listing (sys.mirror r) (projectObjectsPrefix (sys.readerProject r)))
            (sys.readerProject r) (m.read r) :=
          ⟨hread.le, .of_le hle, fun key bytes hobj hnot hl =>
            hclean key bytes hobj hnot (hinsert hobj hl)⟩
        refine h.reader r rfl (fun _ _ => rfl) (fun _ _ => rfl) (fun _ _ => rfl) (fun _ _ => rfl)
          (h.listing _) (fun _ => .of_subset (Nat.le_refl _) fun _ _ hobj hl => hinsert hobj hl)
          ⟨hread.began, hguard⟩ (hgets (by rintro ⟨⟩) _ _ _) ?_
        intro project epoch' hl
        rw [← lookup_insert_eq] at hl
        split at hl
        next hk =>
          obtain rfl := Option.some.inj hl
          have hsan := project_eq_of_marker hk
          refine .inr ⟨m.read r, ?_, ?_⟩
          · rw [epochAt, ← hk]
            exact hread.epoch
          · rw [projectObjectsPrefix, ← hsan]
            exact hguard.of_sanitized hsan
        next => exact .inl hl
      | cons key todo =>
        simp only [syncStep] at hstep
        split at hstep
        next old hold =>
          obtain rfl := Option.some.inj hstep
          refine h.reader r rfl (fun _ _ => rfl) (fun _ _ => rfl) (fun _ _ => rfl) (fun _ _ => rfl)
            (h.listing _)
            (fun _ => .of_subset (Nat.le_refl _) fun _ _ _ hl => lookup_of_lookup_erase hl)
            ⟨hread, hle, ?_⟩ (hgets (by rintro ⟨⟩) _ _ _) fun _ _ hl => .inl (lookup_of_lookup_erase hl)
          intro k b hobj hnot hl
          rw [← lookup_erase_eq] at hl
          split at hl
          · cases hl
          next hne =>
            refine hclean k b hobj (fun hin => ?_) hl
            rcases List.mem_cons.mp hin with rfl | hin
            · exact hne rfl
            · exact hnot hin
        next =>
          obtain rfl := Option.some.inj hstep
          exact hfail (by rintro ⟨⟩)
  | synchronized =>
    rw [hplace] at hstep
    cases hstep
  | failed =>
    rw [hplace] at hstep
    cases hstep

/-- A `get` begins. -/
theorem CacheInv.get_start (h : CacheInv sys s m) (r : R) {task : Nat} {key : Key}
    {s' : World R D W} (hs : readerStep sys s r (.get task key) = some s') :
    CacheInv sys s' ((history sys).update m s (.inl (r, .get task key)) s') := by
  simp only [readerStep] at hs
  split at hs
  next hcan =>
    obtain ⟨hsync, -, hobj⟩ := hcan
    obtain rfl := Option.some.inj hs
    have hstep : CacheInv sys
        { s with
          mirrors := Function.update s.mirrors (sys.mirror r) (s.mirrors (sys.mirror r))
          readers := Function.update s.readers r
            { s.readers r with gets := Function.update (s.readers r).gets task (.lookup key) } }
        m := by
      refine h.reader r rfl (fun _ _ => rfl) (fun _ _ => rfl) (fun _ _ => rfl) (fun _ _ => rfl)
        (h.listing _) (fun _ => .of_log (List.prefix_refl _)) (h.sync r) (fun task' => ?_)
        fun _ _ hl => .inl hl
      dsimp only
      by_cases ht : task' = task
      · rw [ht, Function.update_self]
        exact ⟨hsync, hobj⟩
      · rw [Function.update_of_ne ht]
        exact h.gets r task'
    rwa [Function.update_eq_self] at hstep
  next => cases hs

/-- The condition on a step: when a `get` is about to put what it fetched into
the mirror, the cloud store still holds it, or nobody has listed the mirror
for a wipe since it was fetched. -/
def timely (sys : Deployment R D W) (p : World R D W × History R D W) :
    R × ReaderMove ⊕ W × WriterMove → Bool
  | .inl (r, .task task true) =>
    match (p.1.readers r).gets task with
    | .populate key bytes =>
      p.1.cloud.lookup key = some bytes ||
        decide (p.2.listing (sys.mirror r) (projectObjectsPrefix (sys.readerProject r)) ≤
          p.2.fetched r task)
    | _ => true
  | _ => true

/-- One step of a `get`. -/
theorem CacheInv.get_step (h : CacheInv sys s m) (r : R) {task : Nat} {ok : Bool}
    {s' : World R D W} (htimely : timely sys (s, m) (.inl (r, .task task ok)) = true)
    (hs : readerStep sys s r (.task task ok) = some s') :
    CacheInv sys s' ((history sys).update m s (.inl (r, .task task ok)) s') := by
  obtain ⟨step, hstep, rfl⟩ := Option.map_eq_some_iff.mp hs
  have hsame : ∀ project, Later project m.log (s.mirrors (sys.mirror r))
      (m.listing (sys.mirror r) (projectObjectsPrefix project)) m.log (s.mirrors (sys.mirror r))
      (m.listing (sys.mirror r) (projectObjectsPrefix project)) := fun project =>
    .of_log (List.prefix_refl _)
  have hsync := h.sync r
  have hget := h.gets r task
  -- the other tasks of the reader
  have hgets : ∀ {getting : Getting} (fetched : Nat → Nat),
      (∀ task', task' ≠ task → fetched task' = m.fetched r task') →
      GetOk m.log (sys.readerProject r) (m.began r) (fetched task) (s.readers r).sync getting →
      ∀ task', GetOk m.log (sys.readerProject r) (m.began r) (fetched task') (s.readers r).sync
        (Function.update (s.readers r).gets task getting task') := by
    intro getting fetched hother hown task'
    by_cases ht : task' = task
    · rw [ht, Function.update_self]
      exact hown
    · rw [Function.update_of_ne ht, hother task' ht]
      exact h.gets r task'
  -- a step that leaves the mirror and the history alone
  have hquiet : ∀ {getting : Getting} (hits misses : Nat),
      GetOk m.log (sys.readerProject r) (m.began r) (m.fetched r task) (s.readers r).sync getting →
      CacheInv sys
        { s with
          mirrors := Function.update s.mirrors (sys.mirror r) (s.mirrors (sys.mirror r))
          readers := Function.update s.readers r
            { s.readers r with
              gets := Function.update (s.readers r).gets task getting
              hits := (s.readers r).hits + hits
              misses := (s.readers r).misses + misses } } m := by
    intro getting hits misses hown
    exact h.reader r rfl (fun _ _ => rfl) (fun _ _ => rfl) (fun _ _ => rfl) (fun _ _ => rfl)
      (h.listing _) hsame hsync (hgets _ (fun _ _ => rfl) hown) fun _ _ hl => .inl hl
  cases hplace : (s.readers r).gets task with
  | idle =>
    rw [hplace] at hstep
    cases hstep
  | returned key bytes =>
    rw [hplace] at hstep
    cases hstep
  | failed key =>
    rw [hplace] at hstep
    cases hstep
  | lookup key =>
    rw [hplace] at hstep hget
    simp only [history, hplace]
    cases ok with
    | false =>
      obtain rfl := Option.some.inj hstep
      exact hquiet 0 0 trivial
    | true =>
      simp only [getStep] at hstep
      split at hstep
      next bytes hhit =>
        obtain rfl := Option.some.inj hstep
        refine hquiet 1 0 ⟨hget.1, ?_⟩
        rw [hget.1] at hsync
        obtain ⟨f, hf, hval, hsup⟩ := hsync.2.clean key bytes hget.2 List.not_mem_nil hhit
        exact ⟨f, hf, hval, fun hs => hsup (hs.mono hsync.1)⟩
      next =>
        obtain rfl := Option.some.inj hstep
        exact hquiet 0 0 hget
  | fetch key =>
    rw [hplace] at hstep hget
    simp only [history, hplace]
    cases ok with
    | false =>
      obtain rfl := Option.some.inj hstep
      exact hquiet 0 0 trivial
    | true =>
      have hother : ∀ r', r' ≠ r → Function.update m.fetched r
          (Function.update (m.fetched r) task m.log.length) r' = m.fetched r' :=
        fun r' hr => Function.update_of_ne hr ..
      have hself : ∀ task', task' ≠ task → Function.update m.fetched r
          (Function.update (m.fetched r) task m.log.length) r task' = m.fetched r task' := by
        intro task' ht
        rw [Function.update_self, Function.update_of_ne ht]
      simp only [getStep] at hstep
      split at hstep
      next bytes hbytes =>
        obtain rfl := Option.some.inj hstep
        refine h.reader r rfl (fun _ _ => rfl) (fun _ _ => rfl) hother (fun _ _ => rfl)
          (h.listing _) hsame hsync (hgets _ hself ⟨hget.1, hget.2, ?_⟩) fun _ _ hl => .inl hl
        rw [hget.1] at hsync
        dsimp only
        rw [Function.update_self, Function.update_self, List.take_length, h.log.cloud]
        exact ⟨Nat.le_trans hsync.1 hsync.2.le, Nat.le_refl _, hbytes⟩
      next =>
        obtain rfl := Option.some.inj hstep
        exact h.reader r rfl (fun _ _ => rfl) (fun _ _ => rfl) hother (fun _ _ => rfl)
          (h.listing _) hsame hsync (hgets _ hself trivial) fun _ _ hl => .inl hl
  | populate key bytes =>
    rw [hplace] at hstep hget
    simp only [history, hplace]
    cases ok with
    | false =>
      obtain rfl := Option.some.inj hstep
      exact hquiet 0 0 trivial
    | true =>
      obtain rfl := Option.some.inj hstep
      obtain ⟨hsynced, hobj, hbegan, hlen, hval⟩ := hget
      simp only [timely, hplace, Bool.or_eq_true, decide_eq_true_eq] at htimely
      have hlater : ∀ project, Later project m.log (s.mirrors (sys.mirror r))
          (m.listing (sys.mirror r) (projectObjectsPrefix project)) m.log
          ((s.mirrors (sys.mirror r)).insert key bytes)
          (m.listing (sys.mirror r) (projectObjectsPrefix project)) := by
        intro project
        refine .of_populate h.log hlen hval fun hobj' => ?_
        rw [projectObjectsPrefix, project_eq_of_object hobj' hobj]
        exact htimely
      refine h.reader r rfl (fun _ _ => rfl) (fun _ _ => rfl) (fun _ _ => rfl) (fun _ _ => rfl)
        (h.listing _) hlater (hsync.later (hlater _))
        (hgets _ (fun _ _ => rfl) ⟨hsynced, _, hlen, hval, not_superseded_of_le hbegan⟩) ?_
      intro project epoch hl
      rw [← lookup_insert_eq] at hl
      split at hl
      next hk => exact absurd (hk ▸ hobj) (marker_not_object _ _)
      next => exact .inl hl

/-- One step of a writer. -/
theorem CacheInv.write_step [DecidableEq W] (h : CacheInv sys s m) (w : W) {move : WriterMove}
    {s' : World R D W} (hs : writerStep sys s w move = some s') :
    CacheInv sys s' ((history sys).update m s (.inr (w, move)) s') := by
  obtain ⟨hlog, hmirrors, hreaders⟩ := writerStep_spec h.log hs
  have hgrows : m.log <+: m.log ++ (changeOf sys s w move).toList := List.prefix_append _ _
  constructor
  case log => exact hlog
  case listing => exact fun d pre => Nat.le_trans (h.listing d pre) hgrows.length_le
  case sync =>
    intro r
    rw [hmirrors, hreaders]
    exact (h.sync r).later (.of_log hgrows)
  case gets =>
    intro r task
    rw [hreaders]
    refine (h.gets r task).of_isPrefix hgrows fun hsynced => ?_
    have hsync := h.sync r
    rw [hsynced] at hsync
    exact Nat.le_trans hsync.1 hsync.2.le
  case recorded =>
    intro d project epoch hl
    rw [hmirrors] at hl ⊢
    obtain ⟨n, hepoch, hguard⟩ := h.recorded d project epoch hl
    exact ⟨n, (epochAt_of_isPrefix hgrows hguard.le project).trans hepoch,
      hguard.later (.of_log hgrows)⟩

/-! ## Runs -/

/-- **Coherence**: in a run in which no `get` puts into a mirror what the
cloud store no longer holds, if the mirror has been listed for a wipe since it
was fetched, no `get` returns bytes that were overwritten or deleted by a
writer whose flush had completed before the reader's `synchronize` began. -/
theorem cache_coherent [DecidableEq W] {p : World R D W × History R D W}
    (h : Reach ((cacheMachine sys).observe (history sys)) (fun q l => timely sys q l = true) p) :
    Coherent p.1 p.2 := by
  have hinv : CacheInv sys p.1 p.2 := by
    refine h.invariant (I := fun p => CacheInv sys p.1 p.2) ?_ ?_
    · refine ⟨⟨fun _ => rfl, nofun, nofun, nofun, nofun, nofun⟩, fun _ _ => Nat.le_refl _,
        fun _ => trivial, fun _ _ => trivial, ?_⟩
      intro d project epoch hl
      cases hl
    · rintro ⟨s, m⟩ l ⟨s', m'⟩ - hinv htimely hs
      obtain ⟨hnext, hm⟩ := observe_next.mp hs
      dsimp only at hnext hm hinv ⊢
      subst hm
      rcases l with ⟨r, move⟩ | ⟨w, move⟩
      · cases move with
        | sync ok => exact hinv.sync_step r hnext
        | get task key => exact hinv.get_start r hnext
        | task task ok => exact hinv.get_step r htimely hnext
      · exact hinv.write_step w hnext
  intro r task key bytes hret
  have hget := hinv.gets r task
  rw [hret] at hget
  exact hget.2

end

/-! ## Two readers of one mirror -/

/-- Two readers share a mirror; the writer `true` replaces what `false`
stored. -/
def sharedMirror : Deployment Bool Unit Bool where
  mirror _ := ()
  readerProject _ := ['p']
  writerProject _ := ['p']

def oneKey : Key := projectObjectsPrefix ['p'] ++ ['k']

/-- The first reader fetches the object; then it is overwritten and the
command flushes. -/
def fetchThenOverwrite : List (Bool × ReaderMove ⊕ Bool × WriterMove) :=
  [Sum.inr (false, WriterMove.put oneKey [1])] ++
  List.replicate 5 (Sum.inl (false, ReaderMove.sync true)) ++
  [Sum.inl (false, ReaderMove.get 0 oneKey), .inl (false, .task 0 true), .inl (false, .task 0 true),
    .inr (true, .putOverwrite oneKey [2]), .inr (true, .flush [9] true)]

def secondSync : List (Bool × ReaderMove ⊕ Bool × WriterMove) :=
  List.replicate 5 (Sum.inl (true, ReaderMove.sync true))

def secondGet : List (Bool × ReaderMove ⊕ Bool × WriterMove) :=
  [.inl (true, .get 0 oneKey), .inl (true, .task 0 true)]

theorem cache_coherent_shared :
    ∃ p, Reach ((cacheMachine sharedMirror).observe (history sharedMirror))
      (fun q l => timely sharedMirror q l = true) p ∧
      (p.1.readers true).gets 0 = .returned oneKey [2] ∧
      Current p.2.log (p.2.began true) oneKey [2] := by
  have hrun : ∃ p, (((cacheMachine sharedMirror).observe (history sharedMirror)).restrict
        (fun q l => timely sharedMirror q l = true)).run
        (fetchThenOverwrite ++ [Sum.inl (false, ReaderMove.task 0 true)] ++ secondSync ++
          [Sum.inl (true, ReaderMove.sync true)] ++ secondGet ++
          List.replicate 2 (Sum.inl (true, ReaderMove.task 0 true))) = some p ∧
      (p.1.readers true).gets 0 = .returned oneKey [2] := ⟨_, rfl, rfl⟩
  obtain ⟨p, hp, hget⟩ := hrun
  have hreach := reach_of_run_restrict hp
  exact ⟨p, hreach, hget, cache_coherent hreach true 0 oneKey [2] hget⟩

/-- The first reader populates the mirror after the second has wiped it, and
the second is served what was overwritten before it began. -/
theorem stale_after_wipe :
    ∃ p, Reachable ((cacheMachine sharedMirror).observe (history sharedMirror)) p ∧
      ¬ Coherent p.1 p.2 := by
  have hrun : ∃ p, ((cacheMachine sharedMirror).observe (history sharedMirror)).run
        (fetchThenOverwrite ++ secondSync ++ [Sum.inl (false, ReaderMove.task 0 true)] ++
          secondGet) = some p ∧
      (p.1.readers true).gets 0 = .returned oneKey [1] ∧ p.2.began true = 3 ∧
      p.2.log = [⟨(false, .create), oneKey, some [1]⟩, ⟨(true, .mutate), oneKey, some [2]⟩,
        ⟨(true, .flush), cacheEpochKey ['p'], some [9]⟩] := ⟨_, rfl, rfl, rfl, rfl⟩
  obtain ⟨p, hp, hget, hbegan, hlog⟩ := hrun
  refine ⟨p, reachable_of_run hp, fun hcoherent => ?_⟩
  obtain ⟨f, hf, hval, hsup⟩ := hcoherent true 0 oneKey [1] hget
  rw [hlog] at hf hval hsup
  rw [hbegan] at hsup
  -- the bytes were the key's at position 1 only, and were overwritten there
  match f with
  | 0 => cases hval
  | 1 => exact hsup ⟨true, 1, 2, _, _, by decide, by decide, by decide, rfl, rfl, rfl, rfl, rfl⟩
  | 2 => exact absurd hval (by decide)
  | 3 => exact absurd hval (by decide)
  | _ + 4 => exact absurd hf (by simp)

end Folo.BenchHistory
