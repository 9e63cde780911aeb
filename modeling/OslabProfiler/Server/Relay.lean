import OslabProfiler.Lib.Fields
import OslabProfiler.Lib.JsonBeginning
import OslabProfiler.Lib.Prefixes
import OslabProfiler.Server.RequestStats

/-! # Requests that go on to the BMC

Eleven endpoints of the server only ask the BMC in turn. Seven of them send what the BMC
replies, parsed and printed again; four of them start something on the BMC and never send a
response. The replies come in any order, in callbacks, and an exception in a callback ends the
server. All responses pass the middleware, which counts them by their status: a client that
has the reply already is sent a 304 without it.
-/

namespace OslabProfiler.Server

open Lib

/-! ## The endpoints -/

/-- The status of a response, as `res.json` sets it when it finds the request `fresh`. -/
def statusCode (fresh : Bool) : Nat := if fresh then 304 else 200

inductive Endpoint where
  | requestReport
  | cpuinfoOn
  | statMemResult
  | cpuUsage
  | processInfo
  | bootgraph
  | signal
  | cpuUsagestop
  | fanDo
  | fanEnd
  | fan
  deriving DecidableEq

namespace Endpoint

def method : Endpoint → Text
  | .cpuUsagestop | .fanDo | .fanEnd => "POST".toList
  | _ => "GET".toList

def path : Endpoint → Text
  | .requestReport => "/request/report".toList
  | .cpuinfoOn => "/cpuinfo/on".toList
  | .statMemResult => "/stat_mem/result".toList
  | .cpuUsage => "/cpu/usage".toList
  | .processInfo => "/process_info".toList
  | .bootgraph => "/bootgraph".toList
  | .signal => "/signal".toList
  | .cpuUsagestop => "/cpu/usagestop".toList
  | .fanDo => "/fan/do".toList
  | .fanEnd => "/fan/end".toList
  | .fan => "/fan".toList

/-- The request as the middleware sees it. -/
def request (e : Endpoint) : Request := ⟨e.method, some e.path, some []⟩

/-- The name under which the responses are counted that have a body, or have none because the
    client has it already. -/
def key (e : Endpoint) (fresh : Bool) : Text := eventKey e.request (statusCode fresh)

/-- The endpoints whose callback only writes to the console. -/
def silent : Endpoint → Bool
  | .cpuUsagestop | .fanDo | .fanEnd | .fan => true
  | _ => false

end Endpoint

/-- What a callback does: the value it sends, the text it starts to write to
    `cur_bootgraph.txt`, and whether an exception leaves it. -/
structure Called where
  answer : Option Json := none
  file : Option Text := none
  escapes : Bool := false

/-- A property of a value: `none` where reading it throws, and the inner `none` is
    `undefined`. -/
def bodyProperty (name : Text) : Json → Option (Option Json)
  | .null => none
  | .object fields => some ((Fields.ofList fields).get name)
  | _ => some none

/-- `res.json(JSON.parse(body))`. Without a reply `body` is `undefined`, which is no JSON
    either. -/
def forward (body : Option Text) : Called :=
  match body.bind Json.parse with
  | none => { escapes := true }
  | some v => { answer := some v }

/-- `/cpu/usage` also prints a property of the value, after it was sent. -/
def forwardUsage (body : Option Text) : Called :=
  match body.bind Json.parse with
  | none => { escapes := true }
  | some v => { answer := some v, escapes := (bodyProperty "usage".toList v).isNone }

/-- `/bootgraph` also writes a property of the value to a file, after it was sent;
    `fs.writeFile` throws at once when it is given no text. -/
def forwardDmesg (body : Option Text) : Called :=
  match body.bind Json.parse with
  | none => { escapes := true }
  | some v =>
      match bodyProperty "dmesg".toList v with
      | some (some (.string text)) => { answer := some v, file := some text }
      | _ => { answer := some v, escapes := true }

/-- The callback of an endpoint, with the body of the reply if there is one. -/
def Endpoint.callback : Endpoint → Option Text → Called
  | .requestReport | .cpuinfoOn | .statMemResult | .processInfo | .signal => forward
  | .cpuUsage => forwardUsage
  | .bootgraph => forwardDmesg
  | .cpuUsagestop | .fanDo | .fanEnd | .fan => fun _ => {}

/-! ## The server -/

inductive Phase where
  | waiting
  | answered
  | finished (fresh : Bool)
  /-- The reply has come, and no response is sent. -/
  | ignored
  deriving DecidableEq

/-- The requests in the order in which they came, what was sent to whom, what was written, and
    the statistics. -/
structure Relay where
  alive : Bool := true
  requests : List (Endpoint × Phase) := []
  sent : List (Nat × Json) := []
  written : List Text := []
  middleware : Middleware

inductive RelayEvent where
  | request (e : Endpoint) (now : Int)
  /-- The reply to the request with this number; `none` when the BMC could not be asked. -/
  | reply (id : Nat) (body : Option Text)
  /-- The response has been handed over; `fresh` if the client had the reply already. -/
  | finish (id : Nat) (fresh : Bool) (now : Int)
  /-- Whatever the other endpoints do. -/
  | other (event : Event)

/-- The callback for a waiting request. -/
def Relay.call (σ : Relay) (id : Nat) (e : Endpoint) (body : Option Text) : Relay :=
  let called := e.callback body
  { σ with
    alive := !called.escapes
    requests := σ.requests.set id (e, if called.answer.isSome then .answered else .ignored)
    sent := σ.sent ++ (called.answer.map fun v => (id, v)).toList
    written := σ.written ++ called.file.toList }

def Relay.step (σ : Relay) (event : RelayEvent) : Relay :=
  if σ.alive then
    match event with
    | .request e now =>
        { σ with
          requests := σ.requests ++ [(e, .waiting)]
          middleware := σ.middleware.step (.enter now) }
    | .reply id body =>
        match σ.requests[id]? with
        | some (e, .waiting) => σ.call id e body
        | _ => σ
    | .finish id fresh now =>
        match σ.requests[id]? with
        | some (e, .answered) =>
            { σ with
              requests := σ.requests.set id (e, .finished fresh)
              middleware := σ.middleware.step (.finish e.request (statusCode fresh) now) }
        | _ => σ
    | .other event => { σ with middleware := σ.middleware.step event }
  else σ

def Relay.run (σ : Relay) (events : List RelayEvent) : Relay := events.foldl Relay.step σ

/-! ## Callbacks -/

theorem answer_forward (body : Option Text) : (forward body).answer = body.bind Json.parse := by
  unfold forward
  cases body.bind Json.parse <;> rfl

theorem answer_forwardUsage (body : Option Text) :
    (forwardUsage body).answer = body.bind Json.parse := by
  unfold forwardUsage
  cases body.bind Json.parse <;> rfl

theorem answer_forwardDmesg (body : Option Text) :
    (forwardDmesg body).answer = body.bind Json.parse := by
  unfold forwardDmesg
  cases body.bind Json.parse with
  | none => rfl
  | some v =>
      dsimp only
      split <;> rfl

/-- What is sent is the value of the body, and it is sent unless the endpoint is silent. -/
theorem Endpoint.answer_callback (e : Endpoint) (body : Option Text) :
    (e.callback body).answer = if e.silent then none else body.bind Json.parse := by
  cases e <;> simp [Endpoint.callback, Endpoint.silent, answer_forward, answer_forwardUsage,
    answer_forwardDmesg]

/-- The bodies that a callback gets over: any for a silent endpoint, and the text of a value
    for the others. The value is not `null` where its `usage` is read, and its `dmesg` is a
    text where that is written to a file. -/
def Endpoint.Accepts (e : Endpoint) (body : Option Text) : Prop :=
  e.silent = false → ∃ v, body.bind Json.parse = some v ∧ (e = .cpuUsage → v ≠ .null) ∧
    (e = .bootgraph → ∃ text, bodyProperty "dmesg".toList v = some (some (.string text)))

theorem bodyProperty_isNone {name : Text} {v : Json} :
    (bodyProperty name v).isNone = true ↔ v = .null := by
  cases v <;> simp [bodyProperty]

theorem escapes_forward (body : Option Text) :
    (forward body).escapes = false ↔ ∃ v, body.bind Json.parse = some v := by
  unfold forward
  cases body.bind Json.parse <;> simp

theorem escapes_forwardUsage (body : Option Text) :
    (forwardUsage body).escapes = false ↔ ∃ v, body.bind Json.parse = some v ∧ v ≠ .null := by
  unfold forwardUsage
  cases body.bind Json.parse with
  | none => simp
  | some v =>
      rw [← Bool.not_eq_true, bodyProperty_isNone]
      simp

theorem escapes_forwardDmesg (body : Option Text) :
    (forwardDmesg body).escapes = false ↔ ∃ v, body.bind Json.parse = some v ∧
      ∃ text, bodyProperty "dmesg".toList v = some (some (.string text)) := by
  unfold forwardDmesg
  cases body.bind Json.parse with
  | none => simp
  | some v =>
      dsimp only
      split
      case h_1 text found => exact iff_of_true rfl ⟨v, rfl, text, found⟩
      case h_2 other =>
        simp only [Bool.true_eq_false, false_iff, Option.some.injEq, exists_eq_left']
        rintro ⟨text, found⟩
        exact other text found

theorem Endpoint.accepts_iff (e : Endpoint) (body : Option Text) :
    (e.callback body).escapes = false ↔ e.Accepts body := by
  cases e <;> simp [Endpoint.callback, Endpoint.Accepts, Endpoint.silent, escapes_forward,
    escapes_forwardUsage, escapes_forwardDmesg]

/-! ## Steps -/

/-- What an event can do to the server. -/
inductive Relay.Steps (σ : Relay) : RelayEvent → Relay → Prop where
  | ignored (event : RelayEvent) : Steps σ event σ
  | request (e : Endpoint) (now : Int) :
      Steps σ (.request e now)
        { σ with
          requests := σ.requests ++ [(e, .waiting)]
          middleware := σ.middleware.step (.enter now) }
  | reply (id : Nat) (e : Endpoint) (body : Option Text)
      (waiting : σ.requests[id]? = some (e, .waiting)) :
      Steps σ (.reply id body) (σ.call id e body)
  | finish (id : Nat) (e : Endpoint) (fresh : Bool) (now : Int)
      (answered : σ.requests[id]? = some (e, .answered)) :
      Steps σ (.finish id fresh now)
        { σ with
          requests := σ.requests.set id (e, .finished fresh)
          middleware := σ.middleware.step (.finish e.request (statusCode fresh) now) }
  | other (event : Event) :
      Steps σ (.other event) { σ with middleware := σ.middleware.step event }

theorem Relay.steps (σ : Relay) (event : RelayEvent) : σ.Steps event (σ.step event) := by
  unfold Relay.step
  split
  · cases event with
    | request e now => exact .request e now
    | reply id body =>
        dsimp only
        split
        case h_1 e waiting => exact .reply id e body waiting
        case h_2 => exact .ignored _
    | finish id fresh now =>
        dsimp only
        split
        case h_1 e answered => exact .finish id e fresh now answered
        case h_2 => exact .ignored _
    | other event => exact .other event
  · exact .ignored _

/-! ## Nothing is lost, doubled or mixed up -/

def Phase.responded : Phase → Bool
  | .answered | .finished _ => true
  | .waiting | .ignored => false

/-- A response was sent to the request with this number. -/
def Relay.responded (σ : Relay) (id : Nat) : Bool := (σ.requests[id]?).any fun r => r.2.responded

/-- The requests to an endpoint whose responses are finished, with a body or without. -/
def Relay.finished (σ : Relay) (e : Endpoint) (fresh : Bool) : Nat :=
  σ.requests.countP fun r => r.1 = e && r.2 = .finished fresh

/-- What holds at all times: no request has two responses, the requests with a response are
    those that were answered, no silent endpoint answers, whatever was sent is the value of the
    reply to that very request, and the statistics count the responses that are finished. -/
structure Relay.Orderly (σ : Relay) (events : List RelayEvent)
    (before : Endpoint → Bool → Nat) : Prop where
  once : (σ.sent.map Prod.fst).Nodup
  answered : ∀ id, id ∈ σ.sent.map Prod.fst ↔ σ.responded id = true
  silent : ∀ e phase, (e, phase) ∈ σ.requests → e.silent = true → phase.responded = false
  own : ∀ id v, (id, v) ∈ σ.sent →
    ∃ body, RelayEvent.reply id (some body) ∈ events ∧ Json.parse body = some v
  consistent : σ.middleware.files.Consistent
  counted : ∀ e fresh,
    σ.middleware.files.count (e.key fresh) = before e fresh + σ.finished e fresh

/-- An event that is counted for none of the eleven endpoints. -/
def Event.Foreign (event : Event) : Prop :=
  ∀ (e : Endpoint) fresh, event.finishes (e.key fresh) = false

def Endpoint.all : List Endpoint :=
  [.requestReport, .cpuinfoOn, .statMemResult, .cpuUsage, .processInfo, .bootgraph, .signal,
    .cpuUsagestop, .fanDo, .fanEnd, .fan]

theorem Endpoint.mem_all (e : Endpoint) : e ∈ all := by
  cases e <;> decide

theorem Endpoint.key_injective {e e' : Endpoint} {fresh fresh' : Bool}
    (same : e.key fresh = e'.key fresh') : e = e' ∧ fresh = fresh' := by
  have distinct : ((all.product [false, true]).map fun p => p.1.key p.2).Nodup := by
    decide +kernel
  have member : ∀ (e : Endpoint) (fresh : Bool), (e, fresh) ∈ all.product [false, true] := by
    intro e fresh
    exact List.mem_product.mpr ⟨e.mem_all, by cases fresh <;> decide⟩
  exact Prod.mk.inj (List.inj_on_of_nodup_map distinct (member e fresh) (member e' fresh') same)

theorem Middleware.count_step {σ : Middleware} (consistent : σ.files.Consistent) (event : Event) :
    (σ.step event).files.Consistent ∧ ∀ key, (σ.step event).files.count key =
      σ.files.count key + if event.finishes key then 1 else 0 := by
  obtain ⟨log, represents⟩ := consistent.represents
  have after := represents.run [event]
  refine ⟨after.consistent, fun key => ?_⟩
  have counted := after.count key
  rw [TimeLog.length_after, ← represents.count, List.countP_singleton] at counted
  exact counted

theorem Relay.finished_set {σ : Relay} {id : Nat} {e : Endpoint} {phase : Phase}
    (there : σ.requests[id]? = some (e, phase)) {fresh : Bool}
    (unfinished : phase ≠ .finished fresh) (phase' : Phase) (e' : Endpoint) :
    (σ.requests.set id (e, phase')).countP (fun r => r.1 = e' && r.2 = .finished fresh) =
      σ.finished e' fresh + if e = e' ∧ phase' = .finished fresh then 1 else 0 := by
  obtain ⟨inside, here⟩ := List.getElem?_eq_some_iff.mp there
  rw [List.countP_set inside, here, Relay.finished]
  simp [unfinished]

theorem any_getElem?_set {α : Type} {l : List α} {id : Nat} {x : α} (there : l[id]? = some x)
    (y : α) (p : α → Bool) (j : Nat) :
    ((l.set id y)[j]?).any p = if j = id then p y else (l[j]?).any p := by
  obtain ⟨inside, _⟩ := List.getElem?_eq_some_iff.mp there
  by_cases same : j = id
  · subst same
    simp [inside]
  · rw [if_neg same, List.getElem?_set_ne (Ne.symm same)]

theorem any_getElem?_snoc {α : Type} (l : List α) {x : α} {p : α → Bool} (none : p x = false)
    (j : Nat) : ((l ++ [x])[j]?).any p = (l[j]?).any p := by
  rw [List.getElem?_append]
  split
  · rfl
  · rename_i outside
    rw [List.getElem?_eq_none (not_lt.mp outside), List.getElem?_singleton]
    split
    · simp [none]
    · rfl

namespace Relay.Orderly

variable {σ : Relay} {events : List RelayEvent} {before : Endpoint → Bool → Nat}
  (orderly : σ.Orderly events before)

include orderly

theorem own_snoc (event : RelayEvent) {id : Nat} {v : Json} (member : (id, v) ∈ σ.sent) :
    ∃ body, RelayEvent.reply id (some body) ∈ events ++ [event] ∧ Json.parse body = some v := by
  obtain ⟨body, reply, value⟩ := orderly.own id v member
  exact ⟨body, List.mem_append_left _ reply, value⟩

theorem request (e : Endpoint) (now : Int) :
    Relay.Orderly { σ with
      requests := σ.requests ++ [(e, .waiting)]
      middleware := σ.middleware.step (.enter now) } (events ++ [.request e now]) before where
  once := orderly.once
  answered id := by
    rw [orderly.answered, Relay.responded, Relay.responded, any_getElem?_snoc _ rfl]
  silent e' phase member isSilent := by
    cases List.mem_append.mp member with
    | inl old => exact orderly.silent e' phase old isSilent
    | inr new =>
        cases List.mem_singleton.mp new
        rfl
  own id v member := orderly.own_snoc _ member
  consistent := (Middleware.count_step orderly.consistent _).1
  counted e' fresh := by
    rw [(Middleware.count_step orderly.consistent _).2, orderly.counted]
    simp [Relay.finished, Event.finishes]

theorem reply {id : Nat} {e : Endpoint} (body : Option Text)
    (waiting : σ.requests[id]? = some (e, .waiting)) :
    (σ.call id e body).Orderly (events ++ [.reply id body]) before := by
  have unanswered : id ∉ σ.sent.map Prod.fst := by
    rw [orderly.answered, Relay.responded, waiting]
    simp [Phase.responded]
  have answer := e.answer_callback body
  have sent : (σ.call id e body).sent =
      σ.sent ++ ((e.callback body).answer.map fun v => (id, v)).toList := rfl
  constructor
  · rw [sent]
    cases (e.callback body).answer with
    | none => simpa using orderly.once
    | some v =>
        rw [Option.map_some, Option.toList_some, List.map_append, List.map_singleton]
        exact List.concat_eq_append ▸ orderly.once.concat unanswered
  · intro j
    rw [sent, Relay.responded, Relay.call, any_getElem?_set waiting, List.map_append,
      List.mem_append, orderly.answered]
    by_cases same : j = id
    · subst same
      rw [orderly.answered] at unanswered
      cases (e.callback body).answer <;> simp [Phase.responded, unanswered]
    · cases (e.callback body).answer <;> simp [same, Relay.responded]
  · intro e' phase member isSilent
    cases List.mem_or_eq_of_mem_set member with
    | inl old => exact orderly.silent e' phase old isSilent
    | inr new =>
        cases new
        rw [isSilent, if_pos rfl] at answer
        rw [answer]
        rfl
  · intro j v member
    rw [sent, List.mem_append] at member
    cases member with
    | inl old => exact orderly.own_snoc _ old
    | inr new =>
        rw [Option.mem_toList, Option.map_eq_some_iff] at new
        obtain ⟨value, isAnswer, same⟩ := new
        cases same
        rw [isAnswer] at answer
        split at answer
        · cases answer
        · obtain ⟨text, rfl, parsed⟩ := Option.bind_eq_some_iff.mp answer.symm
          exact ⟨text, by simp, parsed⟩
  · exact orderly.consistent
  · intro e' fresh
    rw [Relay.call, Relay.finished, Relay.finished_set waiting (by simp), orderly.counted]
    split <;> simp

theorem finish {id : Nat} {e : Endpoint} (fresh : Bool) (now : Int)
    (answered : σ.requests[id]? = some (e, .answered)) :
    Relay.Orderly { σ with
      requests := σ.requests.set id (e, .finished fresh)
      middleware := σ.middleware.step (.finish e.request (statusCode fresh) now) }
      (events ++ [.finish id fresh now]) before where
  once := orderly.once
  answered j := by
    rw [orderly.answered, Relay.responded, Relay.responded, any_getElem?_set answered]
    split
    · rename_i same
      rw [same, answered]
      rfl
    · rfl
  silent e' phase member isSilent := by
    cases List.mem_or_eq_of_mem_set member with
    | inl old => exact orderly.silent e' phase old isSilent
    | inr new =>
        cases new
        have none := orderly.silent e .answered (List.mem_of_getElem? answered) isSilent
        cases none
  own j v member := orderly.own_snoc _ member
  consistent := (Middleware.count_step orderly.consistent _).1
  counted e' fresh' := by
    have unfinished : Phase.answered ≠ .finished fresh' := by simp
    have total := Relay.finished_set answered unfinished (.finished fresh) e'
    have counted := (Middleware.count_step orderly.consistent
      (.finish e.request (statusCode fresh) now)).2 (e'.key fresh')
    have same : Event.finishes (e'.key fresh') (.finish e.request (statusCode fresh) now) = true ↔
        e = e' ∧ Phase.finished fresh = .finished fresh' := by
      simp only [Event.finishes, decide_eq_true_eq, Phase.finished.injEq]
      constructor
      · exact fun same => Endpoint.key_injective same
      · rintro ⟨rfl, rfl⟩
        rfl
    rw [orderly.counted, if_congr same rfl rfl, Nat.add_assoc, ← total] at counted
    exact counted

theorem other {event : Event} (foreign : event.Foreign) :
    Relay.Orderly { σ with middleware := σ.middleware.step event } (events ++ [.other event])
      before where
  once := orderly.once
  answered := orderly.answered
  silent := orderly.silent
  own id v member := orderly.own_snoc _ member
  consistent := (Middleware.count_step orderly.consistent _).1
  counted e fresh := by
    rw [(Middleware.count_step orderly.consistent _).2, orderly.counted, foreign e fresh]
    rfl

theorem ignored (event : RelayEvent) : σ.Orderly (events ++ [event]) before where
  once := orderly.once
  answered := orderly.answered
  silent := orderly.silent
  own _ _ member := orderly.own_snoc _ member
  consistent := orderly.consistent
  counted := orderly.counted

theorem step (event : RelayEvent) (foreign : ∀ other, event = .other other → other.Foreign) :
    (σ.step event).Orderly (events ++ [event]) before := by
  have steps := σ.steps event
  generalize σ.step event = σ' at steps ⊢
  cases steps with
  | ignored => exact orderly.ignored event
  | request e now => exact orderly.request e now
  | reply id e body waiting => exact orderly.reply body waiting
  | finish id e fresh now answered => exact orderly.finish fresh now answered
  | other event => exact orderly.other (foreign event rfl)

end Relay.Orderly

/-- Whatever requests, replies and finishes come in whatever order, no response is lost,
    doubled or given to another client, the silent endpoints never respond, and the report
    counts the responses of each endpoint, those with a body and those without. -/
theorem relay_orderly (middleware : Middleware) (consistent : middleware.files.Consistent)
    (events : List RelayEvent) (foreign : ∀ event, .other event ∈ events → event.Foreign) :
    (Relay.run { middleware := middleware } events).Orderly events
      fun e fresh => middleware.files.count (e.key fresh) := by
  induction events using List.reverseRecOn with
  | nil =>
      exact {
        once := List.nodup_nil
        answered := fun id => by simp [Relay.run, Relay.responded]
        silent := fun e phase member => absurd member List.not_mem_nil
        own := fun id v member => absurd member List.not_mem_nil
        consistent := consistent
        counted := fun e fresh => rfl }
  | append_singleton events event ih =>
      rw [Relay.run, List.foldl_append, List.foldl_cons, List.foldl_nil]
      refine (ih fun other member => foreign other (by simp [member])).step event ?_
      rintro other rfl
      exact foreign other (by simp)

/-- Two pages ask at once, and the second one gets its reply first. -/
def twoPages : List RelayEvent :=
  [.request .cpuUsage 10, .request .fan 20, .reply 1 none, .request .signal 30,
    .reply 2 (some "[]".toList), .finish 2 true 35, .reply 0 (some "null".toList)]

theorem relay_orderly_twoPages :
    (Relay.run { middleware := ⟨0, noFiles⟩ } twoPages).Orderly twoPages
      fun e fresh => noFiles.count (e.key fresh) :=
  relay_orderly ⟨0, noFiles⟩ consistent_noFiles twoPages fun event member => by
    simp [twoPages] at member

/-! ## When the server ends -/

theorem Relay.run_snoc (σ : Relay) (events : List RelayEvent) (event : RelayEvent) :
    σ.run (events ++ [event]) = (σ.run events).step event := by
  rw [Relay.run, List.foldl_append, List.foldl_cons, List.foldl_nil, ← Relay.run]

theorem Relay.dead_step {σ : Relay} (dead : σ.alive = false) (event : RelayEvent) :
    σ.step event = σ := by
  simp [Relay.step, dead]

/-- Only a callback ends the server. -/
theorem Relay.alive_step {σ : Relay} (alive : σ.alive = true) (event : RelayEvent) :
    (σ.step event).alive = true ↔ ∀ id body e, event = .reply id body →
      σ.requests[id]? = some (e, .waiting) → (e.callback body).escapes = false := by
  cases event with
  | request e now => simp [Relay.step, alive]
  | finish id fresh now =>
      rw [Relay.step, if_pos alive]
      split <;> simp [alive]
  | other event => simp [Relay.step, alive]
  | reply id body =>
      rw [Relay.step, if_pos alive]
      split
      case h_1 e waiting =>
        rw [Relay.call, Bool.not_eq_true']
        constructor
        · intro accepted id' body' e' same waiting'
          cases same
          rw [waiting] at waiting'
          cases waiting'
          exact accepted
        · intro all
          exact all id body e rfl waiting
      case h_2 none =>
        refine iff_of_true alive fun id' body' e same waiting => ?_
        cases same
        exact absurd waiting (none e)

theorem Relay.alive_run_iff {σ : Relay} (alive : σ.alive = true) (events : List RelayEvent) :
    (σ.run events).alive = true ↔
      ∀ before id body, before ++ [.reply id body] <+: events →
        ∀ e, (σ.run before).requests[id]? = some (e, .waiting) →
          (e.callback body).escapes = false := by
  induction events using List.reverseRecOn with
  | nil => simp [Relay.run, alive]
  | append_singleton events event ih =>
      rw [Relay.run_snoc]
      cases living : (σ.run events).alive with
      | false =>
          rw [Relay.dead_step living, living]
          rw [living] at ih
          refine iff_of_false Bool.false_ne_true fun all => ?_
          refine Bool.false_ne_true (ih.mpr fun before id body along => ?_)
          exact all before id body (along.trans (List.prefix_append _ _))
      | true =>
          rw [Relay.alive_step living]
          rw [living] at ih
          constructor
          · intro last before id body along e waiting
            cases List.prefix_concat_iff.mp along with
            | inl whole =>
                obtain ⟨rfl, rfl⟩ := List.append_singleton_inj.mp whole
                exact last id body e rfl waiting
            | inr earlier => exact ih.mp rfl before id body earlier e waiting
          · rintro all id body e rfl waiting
            exact all events id body List.prefix_rfl e waiting

/-- A reply as the BMC prints it: an object with a text `dmesg`, of which the first `kept`
    characters arrive. -/
structure PrintedReply where
  gap : Text
  fields : List (Text × Json)
  kept : Nat
  spaces : gap.all Json.isSpace = true
  dmesg : ∃ text, (Fields.ofList fields).get "dmesg".toList = some (.string text)

namespace PrintedReply

def whole (reply : PrintedReply) : Text := (Json.object reply.fields).stringify reply.gap []

def body (reply : PrintedReply) : Text := reply.whole.take reply.kept

def Complete (reply : PrintedReply) : Prop := reply.whole.length ≤ reply.kept

/-- A callback that looks at the reply takes it exactly when it is complete. -/
theorem accepts_iff (reply : PrintedReply) (e : Endpoint) :
    e.Accepts (some reply.body) ↔ (e.silent = false → reply.Complete) := by
  have cut : ¬ reply.Complete → Json.parse reply.body = none := by
    intro cut
    have whole := List.take_append_drop reply.kept reply.whole
    refine Json.parse_beginning reply.gap reply.spaces rfl whole fun nothing => ?_
    rw [List.drop_eq_nil_iff] at nothing
    exact cut nothing
  have complete : reply.Complete → Json.parse reply.body = some (.object reply.fields) := by
    intro complete
    rw [body, List.take_of_length_le complete]
    exact Json.parse_stringify reply.gap reply.spaces _
  unfold Endpoint.Accepts
  refine imp_congr_right fun _ => ⟨?_, fun whole => ?_⟩
  · rintro ⟨v, parsed, -⟩
    by_contra part
    rw [Option.bind_some, cut part] at parsed
    cases parsed
  · refine ⟨.object reply.fields, complete whole, fun _ => by simp, fun _ => ?_⟩
    obtain ⟨text, found⟩ := reply.dmesg
    exact ⟨text, congrArg some found⟩

end PrintedReply

/-- An empty log of the kernel, and a reply that ends within it. -/
def emptyDmesg (kept : Nat) : PrintedReply where
  gap := []
  fields := [("dmesg".toList, .string [])]
  kept := kept
  spaces := rfl
  dmesg := ⟨[], rfl⟩

def cutOnce : List RelayEvent :=
  [.request .bootgraph 10, .reply 0 (some (emptyDmesg 12).body), .request .cpuUsage 30,
    .reply 1 (some (emptyDmesg 5).body)]

end OslabProfiler.Server
