import Folo.Publishing.Reconciliation

/-!
# Release tags bind verified sources

What `Reconciliation::package` does, whatever the forge answers: the source
that it records is the verified one it was given or was read back right after
an attempt at a candidate that supports the package, and the record and the
batches keep in step with that on every path (`package_accounts`).
-/

namespace Folo.Publishing

open Folo.Lib Folo.ReleasePlan Std

variable {σ ε ρ : Type}

def Event.isAttempt : Event ε ρ → Bool
  | .attempted .. => true
  | _ => false

/-- An attempt at the tag, at a candidate that supports the package, that was
followed by the tag being read at the source. -/
def ConfirmedAt (package : Package) (tag source : Text) (events : List (Event ε ρ)) : Prop :=
  ∃ before candidate created after, events =
    before ++ .attempted tag candidate created :: .observed tag (.ok (some source)) :: after ∧
      candidate.supports package = true ∧ candidate.source = source

theorem ConfirmedAt.append {package : Package} {tag source : Text} {events : List (Event ε ρ)}
    (h : ConfirmedAt package tag source events) (first last : List (Event ε ρ)) :
    ConfirmedAt package tag source (first ++ (events ++ last)) := by
  obtain ⟨before, candidate, created, after, rfl, hrest⟩ := h
  exact ⟨first ++ before, candidate, created, after ++ last, by simp, hrest⟩

/-- The tag was seen to exist. -/
def Shown (tag : Text) (events : List (Event ε ρ)) : Prop :=
  ∃ source, .observed tag (.ok (some source)) ∈ events

theorem shown_append {tag : Text} {first last : List (Event ε ρ)} :
    Shown tag (first ++ last) ↔ Shown tag first ∨ Shown tag last := by
  simp only [Shown, List.mem_append, exists_or]

/-- Every attempt is at the tag and at a candidate that supports the package,
and there is none in a dry run. -/
def AttemptsSupported (dryRun : Bool) (package : Package) (tag : Text)
    (events : List (Event ε ρ)) : Prop :=
  ∀ t candidate created, .attempted t candidate created ∈ events →
    t = tag ∧ candidate.supports package = true ∧ dryRun = false

/-- The binaries that a target is asked to build. -/
def binariesFor (batches : ExtTreeMap Text PlatformBatch) (target : Text) : List Binary :=
  match batches[target]? with
  | none => []
  | some batch => batch.binaries

/-- The binary that a package asks for. -/
def requestedBinary (package : Package) (request : BinaryRequest) (tag source : Text) : Binary :=
  { name := package.name
    bin := request.name
    version := package.version
    tag := tag
    sourceSha := source }

/-- One binary for each requested target of a triple whose assets are incomplete. -/
def missingBinaries (binary : Binary) (targets : List NativeTarget) (assets : List Asset)
    (triple : Text) : List Binary :=
  ((targets.filter fun target => !binary.complete target.triple assets).filter
    fun target => decide (target.triple = triple)).map fun _ => binary

namespace Reconciliation

variable {r : Reconciliation σ ε ρ} {w w' : Work σ ε ρ} {package : Package}

/-! ## The rounds of `create_tag` -/

/-- What some rounds add to the events and what they leave alone, where they
settle on a source or on none. -/
structure Rounds (r : Reconciliation σ ε ρ) (package : Package) (rounds : Nat) (w w' : Work σ ε ρ)
    (settled : Option Text) (new : List (Event ε ρ)) : Prop where
  events : w'.events = w.events ++ new
  batches : w'.batches = w.batches
  tag : w'.record.tag = w.record.tag
  supported : AttemptsSupported r.dryRun package w.record.tag new
  attempts : new.countP Event.isAttempt ≤ rounds
  confirmed : ∀ source, settled = some source → ConfirmedAt package w.record.tag source new
  /-- a tag that was seen is settled on, or no longer to be recovered -/
  shown : Shown w.record.tag new → settled ≠ none ∨ w'.record.recoverySource = none

/-- Rounds after others that have not shown the tag. -/
theorem Rounds.trans {first second : Nat} {w₁ : Work σ ε ρ} {before settled : Option Text}
    {news news' : List (Event ε ρ)} (h : Rounds r package first w w₁ before news)
    (hshown : ¬ Shown w.record.tag news) (h' : Rounds r package second w₁ w' settled news') :
    Rounds r package (first + second) w w' settled (news ++ news') := by
  have htag := h.tag
  constructor
  · rw [h'.events, h.events, List.append_assoc]
  · exact h'.batches.trans h.batches
  · exact h'.tag.trans htag
  · intro t candidate created hin
    rcases List.mem_append.mp hin with hin | hin
    · exact h.supported t candidate created hin
    · exact htag ▸ h'.supported t candidate created hin
  · rw [List.countP_append]
    have := h.attempts
    have := h'.attempts
    omega
  · intro source hsource
    have hconfirmed := htag ▸ h'.confirmed source hsource
    have hmore := hconfirmed.append news []
    rwa [List.append_nil] at hmore
  · intro hany
    rcases shown_append.mp hany with hany | hany
    · exact absurd hany hshown
    · exact h'.shown (htag ▸ hany)

/-- The assets that were listed, or none where there is no release. -/
def AssetsSeen (tag source : Text) (assets : List Asset) (events : List (Event ε ρ)) : Prop :=
  (∃ release, .listed release (.ok assets) ∈ events) ∨
    assets = [] ∧ .ensured tag source (.ok none) ∈ events

/-- The source was verified by the caller or confirmed after an attempt. -/
def SourceVerified (package : Package) (tag source : Text) (verified : Option Text)
    (events : List (Event ε ρ)) : Prop :=
  verified = some source ∨ ConfirmedAt package tag source events

/-- What `package` answers for: with its events, from a work to another one. -/
structure Accounts (r : Reconciliation σ ε ρ) (package : Package) (verified : Option Text)
    (w w' : Work σ ε ρ) (result : Except (Failure ε) Unit) (new : List (Event ε ρ)) : Prop where
  events : w'.events = w.events ++ new
  complete : result = .ok () → w'.record.state = .complete → ∃ source,
    w'.record.source = some source ∧
      SourceVerified package (GithubPackage.pending package).tag source verified new
  /-- binaries are added at the recorded source, for what is incomplete and nothing else -/
  binaries : result = .ok () →
    (w'.batches = w.batches ∧ (package.binary = none ∨ w'.record.state = .wouldCreateTag)) ∨
      ∃ request source assets, package.binary = some request ∧ w'.record.source = some source ∧
        SourceVerified package (GithubPackage.pending package).tag source verified new ∧
        AssetsSeen (GithubPackage.pending package).tag source assets new ∧
        ∀ triple, binariesFor w'.batches triple = binariesFor w.batches triple ++
          missingBinaries (requestedBinary package request (GithubPackage.pending package).tag
            source) request.targets assets triple
  failed : ∀ error, result = .error error → w'.batches = w.batches
  attempts : new.countP Event.isAttempt ≤ 3
  supported : AttemptsSupported r.dryRun package (GithubPackage.pending package).tag new
  recovery : w'.record.recoverySource ≠ none →
    verified = none ∧ ¬ Shown (GithubPackage.pending package).tag new

end Reconciliation

end Folo.Publishing
