import Folo.Lib.Texts
import Folo.BenchHistory.Caching
import Folo.BenchHistory.History

/-!
# Pruning

`prune_with` of `cbh_analyze/prune.rs` with the listing of `load.rs`, the
stored blessings of `stored_blessings.rs` and the cutoff of `window.rs`. Runs,
blessing sidecars and project-level blessings each pass their own filters into
one plan, and the plan is then deleted key by key. Storage, the parsers of
dates and of stored blessings, and the order in which concurrent fetches
complete are parameters; what is rendered from a plan and what is noted on the
way is left out.
-/

namespace Folo.BenchHistory

open Folo.Lib Std

variable {ε Span : Type}

/-- The storage port. -/
structure StoragePort (ε : Type) where
  list : Text → Except ε (List Key)
  get : Key → Except ε Bytes
  delete : Key → Except ε Unit

/-- What is used of the `jiff` crate. -/
structure DateParsers (Span : Type) where
  timestamp : Text → Option Int
  /-- midnight of a date in UTC -/
  date : Text → Option Int
  span : Text → Option Span
  /-- the instant that far before another, if it can be represented -/
  instantBefore : Span → Int → Option Int
  fromNanosecond : Int → Option Int

def parseInstant (dates : DateParsers Span) (value : Option Text) (flag : Text) (now : Int) :
    Except (AnalyzeError ε) (Option Int) :=
  match value with
  | none => .ok none
  | some value =>
    let value := trim value
    match dates.timestamp value, dates.date value, dates.span value with
    | some timestamp, _, _ => .ok (some timestamp)
    | none, some midnight, _ => .ok (some midnight)
    | none, none, some span =>
      match dates.instantBefore span now with
      | some instant => .ok (some instant)
      | none => .error (.windowOutOfRange (flag ++ " duration".toList))
    | none, none, none => .error (.invalidWindowValue flag value)

def parseSince (dates : DateParsers Span) (value : Option Text) (now : Int) :
    Except (AnalyzeError ε) (Option Int) :=
  parseInstant dates value "--since".toList now

def beforeSinceCutoff (committerTime since : Option Int) : Bool :=
  match committerTime with
  | none => false
  | some time => since.any fun since => decide (time < since)

/-! ## Options -/

structure PruneOptions where
  context : Option Text
  base : Option Text
  commit : List Text
  since : Option Text
  engine : List Text
  targetTriple : List Text
  machineKey : List Text
  clean : Bool
  dirty : Bool
  includeBlessings : Bool
  pruneBase : Bool
  dryRun : Bool
  noText : Bool
  markdown : Option Text
  json : Option Text

def Selection.fromPrune (options : PruneOptions) : Selection where
  context := options.context
  base := options.base
  noDirty := false
  since := options.since
  engine := options.engine
  targetTriple := options.targetTriple
  machineKey := options.machineKey

/-- `ReportRequest::resolve`: there is something to render. -/
def resolveReports (options : PruneOptions) : Except (AnalyzeError ε) Unit :=
  if options.noText && options.markdown.isNone && options.json.isNone then .error .noOutputSelected
  else .ok ()

inductive PruneScope
  | all
  | dirty
  | clean
  deriving DecidableEq

namespace PruneScope

def fromOptions (options : PruneOptions) : Except (AnalyzeError ε) (Option PruneScope) :=
  let scope :=
    match options.clean, options.dirty with
    | true, true => some .all
    | false, true => some .dirty
    | true, false => some .clean
    | false, false => none
  if scope.isNone && !options.includeBlessings then .error .pruneSelectionRequired else .ok scope

def touchesClean : PruneScope → Bool
  | .all | .clean => true
  | .dirty => false

def touchesDirty : PruneScope → Bool
  | .all | .dirty => true
  | .clean => false

end PruneScope

def resolveDiscriminants (selection : Selection) (auto : Option AutoDiscriminants) :
    Except (AnalyzeError ε) DiscriminantSetQuery :=
  let engine := resolveDiscriminant selection.engine none
  match unknownEngine engine with
  | some name => .error (.unknownEngine name)
  | none =>
    .ok
      { engine
        targetTriple := resolveDiscriminant selection.targetTriple (auto.map (·.triple))
        machineKey := resolveDiscriminant selection.machineKey (auto.map (·.machineKey)) }

/-! ## Listing -/

structure BlessingCandidate where
  commit : Text
  legacySet : Option DiscriminantSet

/-- What a listing is taken apart into. -/
structure CandidateListing where
  selected : List (Key × StorageKey)
  siblings : List (Key × StorageKey)
  scopedBlessings : List (Key × BlessingCandidate)

/-- A clean run that the selection leaves out, of a set that differs from it in
the machine only. -/
def retainedAsSibling (query : DiscriminantSetQuery) (collectSiblings : Bool)
    (parsed : StorageKey) : Bool :=
  collectSiblings && !query.accepts parsed.set && parsed.isClean &&
    { query with machineKey := .all }.accepts parsed.set

def filterCandidate (fromNanosecond : Int → Option Int) (query : DiscriminantSetQuery)
    (collectSiblings : Bool) (listing : CandidateListing) (key : Key) : CandidateListing :=
  match parseScopedBlessingKey fromNanosecond key with
  | some commit =>
    { listing with
      scopedBlessings := listing.scopedBlessings ++ [(key, { commit, legacySet := none })] }
  | none =>
    if !".json".toList.isSuffixOf key then listing
    else
      match parseKey key with
      | none => listing
      | some parsed =>
        { listing with
          siblings :=
            if retainedAsSibling query collectSiblings parsed then
              listing.siblings ++ [(key, parsed)]
            else listing.siblings
          selected :=
            if query.accepts parsed.set then listing.selected ++ [(key, parsed)]
            else listing.selected }

def filterCandidates (fromNanosecond : Int → Option Int) (keys : List Key)
    (query : DiscriminantSetQuery) (collectSiblings : Bool) : CandidateListing :=
  keys.foldl (filterCandidate fromNanosecond query collectSiblings)
    { selected := [], siblings := [], scopedBlessings := [] }

def listCandidates (storage : StoragePort ε) (fromNanosecond : Int → Option Int)
    (projectId : Text) (query : DiscriminantSetQuery) (collectSiblings : Bool) :
    Except (AnalyzeError ε) CandidateListing := do
  let keys ← mapErr .port (storage.list (projectObjectsPrefix projectId))
  pure (filterCandidates fromNanosecond keys query collectSiblings)

/-! ## Stored blessings -/

/-- Of a stored blessing, the commit that it is anchored at. -/
structure BlessingRecord where
  commit : Text

/-- The parsers of stored blessings. -/
structure BlessingCodec where
  utf8 : Bytes → Option Text
  recordFromJson : Text → Option BlessingRecord
  scopedFromJson : Text → Option (BlessingRecord × BlessingScope)

structure StoredBlessing where
  key : Key
  commit : Text
  scope : BlessingScope
  record : BlessingRecord

/-- The record of a blessing, and the scope that its key or the record gives it. -/
def BlessingCodec.decode (codec : BlessingCodec) (candidate : BlessingCandidate) (text : Text) :
    Option (BlessingRecord × BlessingScope) :=
  match candidate.legacySet with
  | some set => (codec.recordFromJson text).map fun record => (record, .ofSet set)
  | none => codec.scopedFromJson text

/-- `fetch_one` with the parser of `load_blessings`. -/
def fetchBlessing (storage : StoragePort ε) (codec : BlessingCodec)
    (one : Key × BlessingCandidate) : Except (AnalyzeError ε) StoredBlessing := do
  let (key, candidate) := one
  let bytes ← mapErr .port (storage.get key)
  match codec.utf8 bytes with
  | none => .error (.invalidStoredUtf8 "stored blessing".toList key)
  | some text =>
    match codec.decode candidate text with
    | none => .error (.invalidBlessing "stored blessing".toList key "blessing record".toList)
    | some (record, scope) =>
      if record.commit ≠ candidate.commit then
        .error (.invalidBlessing "stored blessing".toList key
          "record with an anchor matching its storage key".toList)
      else pure { key, commit := candidate.commit, scope, record }

/-- The order in which concurrent fetches complete. -/
structure CompletionOrder (α : Type) where
  completed : List α → List α
  perm : ∀ xs, (completed xs).Perm xs

def loadBlessings (storage : StoragePort ε) (codec : BlessingCodec)
    (fetches : CompletionOrder (Key × BlessingCandidate))
    (candidates : List (Key × BlessingCandidate)) (query : DiscriminantSetQuery) :
    Except (AnalyzeError ε) (List StoredBlessing) := do
  let fetched ← (fetches.completed candidates).mapM (fetchBlessing storage codec)
  let selected := blessingScope query
  pure ((fetched.insertionSort fun a b => a.key ≤ b.key).filter fun blessing =>
    selected.intersects blessing.scope)

def requireContainedScope (selected scope : BlessingScope) (key : Key) :
    Except (AnalyzeError ε) Unit :=
  if selected.contains scope then .ok () else .error (.blessingScopeConflict key scope.display)

/-! ## The plan -/

inductive RunKind
  | clean
  | dirty
  | bless
  deriving DecidableEq

def RunKind.isRun : RunKind → Bool
  | .clean | .dirty => true
  | .bless => false

structure RemovalItem where
  index : Nat
  set : BlessingScope
  commit : Text
  key : Key
  kind : RunKind

structure CommitRemoval where
  commit : Text
  runs : Nat
  blessings : Nat
  keys : List Key

structure SetRemoval where
  set : BlessingScope
  runs : Nat
  blessings : Nat
  commits : List CommitRemoval

structure Plan where
  project : Text
  targetRef : Text
  sets : List SetRemoval
  totalRuns : Nat
  totalBlessings : Nat

/-- An item goes into the removals of its commit. -/
def addRemoval (byCommit : ExtTreeMap Nat CommitRemoval) (item : RemovalItem) :
    ExtTreeMap Nat CommitRemoval :=
  upsert byCommit item.index { commit := item.commit, runs := 0, blessings := 0, keys := [] }
    fun entry =>
      { entry with
        runs := if item.kind.isRun then saturatingAdd entry.runs 1 else entry.runs
        blessings := if item.kind.isRun then entry.blessings else saturatingAdd entry.blessings 1
        keys := entry.keys ++ [item.key] }

def setRemoval (items : List RemovalItem) (set : BlessingScope) : SetRemoval :=
  let inSet := items.filter fun item => decide (item.set = set)
  { set
    runs := inSet.countP fun item => item.kind.isRun
    blessings := inSet.countP fun item => !item.kind.isRun
    commits := (inSet.foldl addRemoval ∅).toList.map Prod.snd }

def buildPlan (projectId targetRef : Text) (items : List RemovalItem) : Plan where
  project := projectId
  targetRef := targetRef
  sets := (((items.map (·.set)).insertionSort (· ≤ ·)).destutter (· ≠ ·)).map (setRemoval items)
  totalRuns := items.countP fun item => item.kind.isRun
  totalBlessings := items.countP fun item => !item.kind.isRun

/-- The keys in the order in which they are deleted. -/
def Plan.keys (plan : Plan) : List Key :=
  plan.sets.flatMap fun set => set.commits.flatMap (·.keys)

def commitIsEligible (index : Nat) (mergeBaseIndex : Option Nat) (tipIsMergeBase : Bool) : Bool :=
  if tipIsMergeBase then true
  else
    match mergeBaseIndex with
    | some mergeBaseIndex => decide (mergeBaseIndex < index)
    | none => false

def commitMatches (commit : Text) (filters : List Text) : Bool :=
  if filters.isEmpty then true
  else filters.any fun filter => (asciiLowercase filter).isPrefixOf (asciiLowercase commit)

def selectedIndex (commit : Text) (order : CommitOrder) (mergeBaseIndex : Option Nat)
    (tipIsMergeBase : Bool) (commitFilters : List Text) : Option Nat :=
  match order.index[commit]? with
  | none => none
  | some index =>
    if !commitIsEligible index mergeBaseIndex tipIsMergeBase then none
    else if !commitMatches commit commitFilters then none
    else some index

/-- The gates that every object passes: the position of a commit that is in the
selected range and not before the cutoff. -/
def ResolvedHistory.selectedIndex (history : ResolvedHistory) (commit : Text)
    (commitFilters : List Text) : Option Nat :=
  BenchHistory.selectedIndex commit history.order history.mergeBaseIndex history.tipIsMergeBase
    commitFilters

/-- A run that the scope removes. -/
def runRemoval (history : ResolvedHistory) (options : PruneOptions) (since : Option Int)
    (scope : PruneScope) (one : Key × StorageKey) : Option RemovalItem :=
  let (key, parsed) := one
  match history.selectedIndex parsed.commit options.commit with
  | none => none
  | some index =>
    let kind := if parsed.isDirty then RunKind.dirty else .clean
    let skipped : Bool :=
      match kind with
      | .dirty =>
        !scope.touchesDirty ||
          (decide (scope = .dirty) && !(history.admitDirty[parsed.commit]?).getD false)
      | .clean => !scope.touchesClean
      -- blessings were partitioned out
      | .bless => true
    if skipped then none
    else if beforeSinceCutoff history.commitTimes[parsed.commit]? since then none
    else some { index, set := .ofSet parsed.set, commit := parsed.commit, key, kind }

/-- A blessing sidecar that is removed. -/
def sidecarRemoval (history : ResolvedHistory) (options : PruneOptions) (since : Option Int)
    (one : Key × StorageKey) : Option RemovalItem :=
  let (key, parsed) := one
  match history.selectedIndex parsed.commit options.commit with
  | none => none
  | some index =>
    if beforeSinceCutoff history.commitTimes[parsed.commit]? since then none
    else some { index, set := .ofSet parsed.set, commit := parsed.commit, key, kind := .bless }

/-- A project-level blessing is fetched. -/
def scopedSelected (history : ResolvedHistory) (options : PruneOptions) (since : Option Int)
    (one : Key × BlessingCandidate) : Bool :=
  (history.selectedIndex one.2.commit options.commit).isSome &&
    !beforeSinceCutoff history.commitTimes[one.2.commit]? since

/-- What a prune runs against. -/
structure PruneContext (ε Span : Type) where
  git : GitHistory ε
  storage : StoragePort ε
  projectId : Text
  config : Config
  auto : AutoDiscriminants
  now : Int
  dates : DateParsers Span
  codec : BlessingCodec
  fetches : CompletionOrder (Key × BlessingCandidate)

namespace PruneContext

/-- The project-level blessings that are removed, if each is selected whole. -/
def scopedRemovals (ctx : PruneContext ε Span) (options : PruneOptions) (history : ResolvedHistory)
    (query : DiscriminantSetQuery) (since : Option Int)
    (listed : List (Key × BlessingCandidate)) : Except (AnalyzeError ε) (List RemovalItem) := do
  let candidates := listed.filter (scopedSelected history options since)
  let blessings ← loadBlessings ctx.storage ctx.codec ctx.fetches candidates query
  blessings.mapM fun blessing => do
    requireContainedScope (blessingScope query) blessing.scope blessing.key
    pure
      { -- the candidates were restricted to the selected topology
        index := (history.order.index[blessing.commit]?).getD 0
        set := blessing.scope
        commit := blessing.commit
        key := blessing.key
        kind := .bless }

/-- What is removed of a listing. -/
def removalItems (ctx : PruneContext ε Span) (options : PruneOptions) (history : ResolvedHistory)
    (query : DiscriminantSetQuery) (since : Option Int) (scope : Option PruneScope)
    (listing : CandidateListing) : Except (AnalyzeError ε) (List RemovalItem) :=
  let runs := listing.selected.filter fun one => !one.2.isBless
  let blessings := listing.selected.filter fun one => one.2.isBless
  let runItems := (scope.map fun scope =>
    runs.filterMap (runRemoval history options since scope)).getD []
  if options.includeBlessings then do
    let sidecarItems := blessings.filterMap (sidecarRemoval history options since)
    let scopedItems ← ctx.scopedRemovals options history query since listing.scopedBlessings
    pure (runItems ++ sidecarItems ++ scopedItems)
  else .ok runItems

/-- Everything up to the plan. -/
def planRemovals (ctx : PruneContext ε Span) (options : PruneOptions) :
    Except (AnalyzeError ε) Plan := do
  resolveReports options
  let since ← parseSince ctx.dates options.since ctx.now
  let scope ← PruneScope.fromOptions options
  let selection := Selection.fromPrune options
  let query ← resolveDiscriminants selection (some ctx.auto)
  let listing ← listCandidates ctx.storage ctx.dates.fromNanosecond ctx.projectId query false
  let history ← resolveHistory ctx.git ctx.config selection .always
  if history.tipIsMergeBase && !options.pruneBase then
    .error (.pruneBaseConfirmationRequired history.baseName)
  else do
    let items ← ctx.removalItems options history query since scope listing
    pure (buildPlan ctx.projectId history.targetRef items)

/-- The keys that storage was asked to delete, until one deletion failed. -/
def deleteKeys (ctx : PruneContext ε Span) : List Key → List Key × Except (AnalyzeError ε) Unit
  | [] => ([], .ok ())
  | key :: keys =>
    match ctx.storage.delete key with
    | .error e => ([key], .error (.port e))
    | .ok _ =>
      let (deleted, result) := ctx.deleteKeys keys
      (key :: deleted, result)

/-- `prune_with`: the keys that were deleted, and the plan. -/
def pruneWith (ctx : PruneContext ε Span) (options : PruneOptions) :
    List Key × Except (AnalyzeError ε) Plan :=
  match ctx.planRemovals options with
  | .error e => ([], .error e)
  | .ok plan =>
    if options.dryRun then ([], .ok plan)
    else
      let (deleted, result) := ctx.deleteKeys plan.keys
      (deleted, result.map fun _ => plan)

end PruneContext

end Folo.BenchHistory
