import AdapterWs.Lib.JsMap
import AdapterWs.Lib.JsSet
import AdapterWs.Lib.JsString
import AdapterWs.Lib.Machine

/-!
# Cluster metrics collections

The primary asks the workers for their metrics, one collection at a time. It keeps the last report
of each live worker and the carried totals of the workers that exited, and hands out what arrived,
what is stale and what is carried.
-/

namespace AdapterWs.Metrics

open JsString

/-- The type of a signal. -/
inductive SignalType
  | counter
  | gauge
  | histogram
  deriving DecidableEq

/-- The signal manifest, as far as a collection reads it. -/
structure Manifest where
  /-- `SIGNALS_BY_NAME.get(name)?.type`. -/
  type : JsString → Option SignalType
  /-- The label names of a signal. -/
  labels : JsString → List JsString
  /-- The number of counts of a histogram. -/
  counts : JsString → ℕ
  name_ok : ∀ name, type name ≠ none → unit '|' ∉ name
  label_ok : ∀ name, ∀ label ∈ labels name, unit ',' ∉ label ∧ unit '=' ∉ label

/-- The value of a histogram. -/
structure Histogram where
  /-- The upper bounds of its buckets. -/
  buckets : List Rat
  counts : List ℕ
  count : ℕ
  sum : ℕ
  deriving DecidableEq

/-- One mirrored value. -/
structure Sample where
  name : JsString
  /-- The labels, if it has any. -/
  labels : Option (JsMap JsString JsString)
  /-- The value, if it is a number. -/
  value : Option ℕ
  /-- The histogram, if it has one. -/
  histogram : Option Histogram
  deriving DecidableEq

/-- `sample.labels !== null && typeof sample.labels === 'object' ? sample.labels : {}`. -/
def Sample.labelsOf (x : Sample) : JsMap JsString JsString := x.labels.getD .empty

/-- What the primary carries of a sample. -/
def cumulativeSample (m : Manifest) (x : Sample) : Option Sample :=
  match m.type x.name with
  | some .counter => x.value.map fun value => ⟨x.name, some x.labelsOf, some value, none⟩
  | some .histogram => x.histogram.map fun h => ⟨x.name, some x.labelsOf, none, some h⟩
  | _ => none

/-- `cumulativeSamplesOf(samples)`. -/
def cumulativeSamplesOf (m : Manifest) (samples : List Sample) : List Sample :=
  samples.filterMap (cumulativeSample m)

/-- The order of two strings by code unit. -/
def codeUnitLe : JsString → JsString → Bool
  | [], _ => true
  | _ :: _, [] => false
  | c :: s, d :: t => c.toNat < d.toNat || c == d && codeUnitLe s t

/-- One label of a key. -/
def labelText (e : JsString × JsString) : JsString := e.1 ++ unit '=' :: e.2

/-- `keyOf(name, labels)`. -/
def keyOf (name : JsString) (labels : JsMap JsString JsString) : JsString :=
  name ++ unit '|' ::
    [unit ','].intercalate
      ((labels.entries.insertionSort fun e e' => codeUnitLe e.1 e'.1 = true).map labelText)

/-- Who a report stands for. -/
inductive Origin
  | thread (threadId : ℕ)
  | stale
  | retired
  deriving DecidableEq

/-- The samples of one worker, or of those that did not answer or have exited. -/
structure Report where
  worker : Origin
  samples : List Sample
  deriving DecidableEq

/-- Who awaits a result, under its own correlation id. -/
structure Requester where
  worker : ℕ
  id : JsString
  deriving DecidableEq

/-- An open collection. -/
structure Collection where
  /-- The id that the reports carry. -/
  collectId : JsString
  requesters : List Requester
  reports : List Report
  /-- The workers that are owed. -/
  targets : JsSet ℕ
  answeredThreads : JsSet ℕ
  expected : ℕ
  answered : ℕ
  pending : ℤ
  deriving DecidableEq

/-- The bookkeeping of the primary. -/
structure MetricsCollections where
  /-- The open collection. -/
  active : Option Collection
  /-- The last report of each live worker. -/
  lastByThread : JsMap ℕ (List Sample)
  /-- The carried totals of the workers that exited, by series. -/
  retired : JsMap JsString Sample
  deriving DecidableEq

/-- What is handed out to the requesters of a collection. -/
structure Document where
  requesters : List Requester
  reports : List Report
  expected : ℕ
  reporting : ℕ
  deriving DecidableEq

namespace MetricsCollections

/-- `createMetricsCollections()`. -/
def create : MetricsCollections := ⟨none, .empty, .empty⟩

/-- `begin(requester, id, targetThreadIds)`. -/
def begin (c : MetricsCollections) (requester : ℕ) (id : JsString) (targetThreadIds : List ℕ) :
    MetricsCollections :=
  match c.active with
  | some _ => c
  | none =>
    let targets := targetThreadIds.foldl JsSet.add .empty
    { c with
      active := some
        { collectId := id
          requesters := [⟨requester, id⟩]
          reports := []
          targets := targets
          answeredThreads := .empty
          expected := targets.size
          answered := 0
          pending := targets.size } }

/-- `join(requester, id)`. -/
def join (c : MetricsCollections) (requester : ℕ) (id : JsString) : Bool × MetricsCollections :=
  match c.active with
  | none => (false, c)
  | some e =>
    if e.requesters.any fun r => r.id == id then (true, c)
    else (true, { c with active := some { e with
      requesters := e.requesters ++ [⟨requester, id⟩] } })

/-- `note(collectId, threadId, samples)`, where `none` stands for anything but an array. -/
def note (c : MetricsCollections) (collectId : JsString) (threadId : ℕ)
    (samples : Option (List Sample)) : Bool × MetricsCollections :=
  match c.active with
  | none => (false, c)
  | some e =>
    if collectId = e.collectId ∧ threadId ∈ e.targets ∧ threadId ∉ e.answeredThreads then
      let reportSamples := samples.getD []
      let pending := e.pending - 1
      (decide (pending ≤ 0),
        { c with
          active := some
            { e with
              answeredThreads := e.answeredThreads.add threadId
              answered := e.answered + 1
              reports := e.reports ++ [⟨.thread threadId, reportSamples⟩]
              pending := pending }
          lastByThread :=
            if reportSamples = [] then c.lastByThread
            else c.lastByThread.set threadId reportSamples })
    else (false, c)

/-- `missed(threadId)`. -/
def missed (c : MetricsCollections) (threadId : Option ℕ) : Bool × MetricsCollections :=
  match c.active with
  | none => (false, c)
  | some e =>
    let pending := e.pending - 1
    match threadId with
    | none => (decide (pending ≤ 0), { c with active := some { e with pending := pending } })
    | some threadId =>
      if threadId ∉ e.targets ∨ threadId ∈ e.answeredThreads then (false, c)
      else
        (decide (pending ≤ 0),
          { c with
            active := some
              { e with
                answeredThreads := e.answeredThreads.add threadId
                pending := pending } })

/-- Withdraw the report of a worker from a collection. -/
def withdraw (threadId : ℕ) (e : Collection) : Collection :=
  { e with reports := e.reports.eraseP fun r => r.worker = .thread threadId }

/-- Add a sample to a carried one of its series. -/
def addSample (existing sample : Sample) : Sample :=
  match sample.histogram, existing.histogram with
  | some h, some g =>
    { existing with
      histogram := some
        { g with
          counts := g.counts.mapIdx fun i n => n + (h.counts[i]?).getD 0
          count := g.count + h.count
          sum := g.sum + h.sum } }
  | _, _ => { existing with value := existing.value.bind fun n => sample.value.map (n + ·) }

/-- Carry one sample. -/
def carry (retired : JsMap JsString Sample) (sample : Sample) : JsMap JsString Sample :=
  let key := keyOf sample.name sample.labelsOf
  match retired.get key with
  | none => retired.set key sample
  | some existing => retired.set key (addSample existing sample)

/-- `retire(threadId)`. -/
def retire (m : Manifest) (c : MetricsCollections) (threadId : ℕ) : MetricsCollections :=
  match c.lastByThread.get threadId with
  | none => c
  | some samples =>
    { active := c.active.map (withdraw threadId)
      lastByThread := c.lastByThread.delete threadId
      retired := (cumulativeSamplesOf m samples).foldl carry c.retired }

/-- `retiredReport()`. -/
def retiredReport (c : MetricsCollections) : Option Report :=
  if c.retired.size = 0 then none
  else some ⟨.retired, c.retired.entries.map Prod.snd⟩

/-- The last known totals of the workers that were asked and did not answer. -/
def staleOf (m : Manifest) (c : MetricsCollections) (e : Collection) : List Sample :=
  (e.targets.elems.filter fun threadId => threadId ∉ e.answeredThreads).flatMap fun threadId =>
    cumulativeSamplesOf m ((c.lastByThread.get threadId).getD [])

/-- `take()`: the open collection with what is stale in it. -/
def take (m : Manifest) (c : MetricsCollections) :
    Option (Collection × List Sample) × MetricsCollections :=
  (c.active.map fun e => (e, c.staleOf m e), { c with active := none })

end MetricsCollections

open MetricsCollections

/-- `finishMetricsCollection()`: what the requesters are sent. -/
def finishMetricsCollection (m : Manifest) (c : MetricsCollections) :
    Option Document × MetricsCollections :=
  let taken := c.take m
  (taken.1.map fun p =>
    { requesters := p.1.requesters
      reports := p.1.reports ++ (if p.2 = [] then [] else [⟨.stale, p.2⟩]) ++
        taken.2.retiredReport.toList
      expected := p.1.expected
      reporting := p.1.answered }, taken.2)

/-- The bookkeeping, with what the workers and the requesters saw of it. -/
structure Scrapes where
  collections : MetricsCollections
  /-- The workers that exited. -/
  exited : List ℕ
  /-- The reports made so far. -/
  sent : List (ℕ × List Sample)
  /-- The documents handed out, oldest first. -/
  documents : List Document

/-- A call on the bookkeeping. -/
inductive ScrapeEvent
  | begin (requester : ℕ) (id : JsString) (targetThreadIds : List ℕ)
  | join (requester : ℕ) (id : JsString)
  | note (collectId : JsString) (threadId : ℕ) (samples : Option (List Sample))
  | missed (threadId : Option ℕ)
  | retire (threadId : ℕ)
  | finish
  | retiredReport

/-- One call. -/
def Scrapes.call (m : Manifest) (s : Scrapes) : ScrapeEvent → Scrapes
  | .begin requester id targets =>
    { s with collections := s.collections.begin requester id targets }
  | .join requester id => { s with collections := (s.collections.join requester id).2 }
  | .note collectId threadId samples =>
    { s with
      collections := (s.collections.note collectId threadId samples).2
      sent := s.sent ++ [(threadId, samples.getD [])] }
  | .missed threadId => { s with collections := (s.collections.missed threadId).2 }
  | .retire threadId =>
    { s with
      collections := s.collections.retire m threadId
      exited := s.exited ++ [threadId] }
  | .finish =>
    let finished := finishMetricsCollection m s.collections
    { s with
      collections := finished.2
      documents := s.documents ++ finished.1.toList }
  | .retiredReport => s

/-- Every order of calls. -/
def scrapeMachine (m : Manifest) : Machine Scrapes ScrapeEvent where
  init := ⟨.create, [], [], []⟩
  step s e := some (s.call m e)

end AdapterWs.Metrics
