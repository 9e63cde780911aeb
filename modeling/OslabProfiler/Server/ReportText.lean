import OslabProfiler.Lib.Fields
import OslabProfiler.Lib.JsonBeginning
import OslabProfiler.Server.Number
import OslabProfiler.Server.ReportFaults

/-! # The statistics as texts

`report.json` and `httpcodereport.json` are texts: at every finish they are parsed, changed
and printed again. The process can be killed while `report.json` is written, which is then
cut off. Here the handler works on the texts themselves, and a run of it is related to the
run of the handler on values, where a text that was cut off is a report that was lost.
-/

namespace OslabProfiler.Server

open Lib

/-! ## Numbers -/

theorem head_toDigits {n : Nat} (pos : 0 < n) : (Nat.toDigits 10 n).head? ≠ some '0' := by
  induction n using Nat.strong_induction_on with
  | _ n ih =>
      by_cases small : n < 10
      · rw [Nat.toDigits_of_lt_base small]
        interval_cases n <;> decide
      · have before := ih (n / 10) (by omega) (by omega)
        rw [Nat.toDigits_of_base_le (by decide) (not_lt.mp small)]
        cases digits : Nat.toDigits 10 (n / 10) with
        | nil => exact absurd digits Nat.toDigits_ne_nil
        | cons c l =>
            rw [digits] at before
            exact before

theorem unsigned_toDigits (n : Nat) : JsonNumber.unsigned (Nat.toDigits 10 n) = true := by
  have all : ∀ c ∈ Nat.toDigits 10 n, c.isDigit = true := fun c => digit_of_mem
  have integer : JsonNumber.integer (Nat.toDigits 10 n) = some [] := by
    rcases Nat.eq_zero_or_pos n with rfl | pos
    · decide
    · have head := head_toDigits pos
      cases digits : Nat.toDigits 10 n with
      | nil => exact absurd digits Nat.toDigits_ne_nil
      | cons c l =>
          rw [digits] at head all
          unfold JsonNumber.integer
          split
          · rename_i same
            obtain ⟨rfl, -⟩ := List.cons.inj same
            exact absurd rfl head
          · rw [JsonNumber.digits, List.takeWhile_eq_self_iff.mpr all,
              List.dropWhile_eq_nil_iff.mpr all]
            rfl
  rw [JsonNumber.unsigned, integer]
  decide

theorem isLiteral_toDigits (n : Nat) : JsonNumber.isLiteral (Nat.toDigits 10 n) = true := by
  unfold JsonNumber.isLiteral
  split
  · rename_i l minus
    have digit : '-'.isDigit = true := digit_of_mem (n := n) (by rw [minus]; exact List.mem_cons_self)
    cases digit
  · exact unsigned_toDigits n

theorem isLiteral_printInt (z : Int) : JsonNumber.isLiteral (printInt z) = true := by
  cases z with
  | ofNat n => exact isLiteral_toDigits n
  | negSucc n => exact unsigned_toDigits (n + 1)

theorem wordChars_toDigits (n : Nat) : (Nat.toDigits 10 n).all isWordChar = true := by
  rw [List.all_eq_true]
  intro c member
  simp [isWordChar, Char.isAlphanum, digit_of_mem member]

theorem wordChars_printInt (z : Int) : (printInt z).all isWordChar = true := by
  cases z with
  | ofNat n => exact wordChars_toDigits n
  | negSucc n =>
      rw [printInt, List.all_cons, wordChars_toDigits]
      decide

def intLiteral (z : Int) : JsonLiteral where
  text := printInt z
  valid := isLiteral_printInt z
  wordChars := wordChars_printInt z

/-- The integer a number literal stands for. -/
def intOf : Json → Option Int
  | .number l =>
      match literal l.text with
      | .rat q => if q.den = 1 then some q.num else none
      | _ => none
  | _ => none

@[simp] theorem intOf_intLiteral (z : Int) : intOf (.number (intLiteral z)) = some z := by
  simp [intOf, intLiteral, literal_printInt]

/-! ## The two files -/

/-- An element of `Time`. -/
def timeJson (fields : List (Text × Int)) : Json :=
  .object (fields.map fun f => (f.1, .number (intLiteral f.2)))

def entryJson : Entry → Json
  | .object count time =>
      .object ((count.map fun n => ("Count".toList, Json.number (intLiteral n))).toList ++
        (time.map fun t => ("Time".toList, Json.array (t.map timeJson))).toList)
  | .number n => .number (intLiteral n)
  | .string s => .string s

def timeOf : Json → Option (List (Text × Int))
  | .object fields => fields.mapM fun f => (intOf f.2).map fun n => (f.1, n)
  | _ => none

def countOf (v : Json) : Option Nat := (intOf v).bind Int.toNat?

/-- An entry as the handler writes it. -/
def entryOfJson : Json → Option Entry
  | .number l => (intOf (.number l)).map .number
  | .string s => some (.string s)
  | .object [(name₁, count), (name₂, .array time)] =>
      if name₁ = "Count".toList && name₂ = "Time".toList then
        (countOf count).bind fun n =>
          (time.mapM timeOf).map fun t => .object (some n) (some t)
      else none
  | _ => none

def stringOf : Json → Option Text
  | .string s => some s
  | _ => none

/-- The contents of the two files; `none` is a file that is missing. -/
structure TextFiles where
  report : Option Text
  httpCode : Option Text

/-- `readStats`: an error is caught and leaves an empty object. `none` is a file with
    something else in it than the handler writes. -/
def TextFiles.readStats (texts : TextFiles) : Option (Fields Entry) :=
  match texts.report.bind Json.parse with
  | none => some .empty
  | some (.object fields) =>
      (fields.mapM fun f => (entryOfJson f.2).map fun e => (f.1, e)).map Fields.ofList
  | some _ => none

/-- `readHttpCode`, as the list in `request_info`, if that is there. -/
def TextFiles.readHttpCode (texts : TextFiles) : Option (Option (List Text)) :=
  match texts.httpCode.bind Json.parse with
  | none => some none
  | some (.object []) => some none
  | some (.object [(name₁, .object [(name₂, .array events)])]) =>
      if name₁ = "request_info".toList && name₂ = "list".toList then
        (events.mapM stringOf).map some
      else none
  | some _ => none

/-- `JSON.stringify(stats)`. -/
def dumpStats (stats : Fields Entry) : Text :=
  (Json.object (stats.list.map fun f => (f.1, entryJson f.2))).stringify [] []

/-- `JSON.stringify(info)`. -/
def dumpHttpinfo (list : List Text) : Text :=
  (Json.object [("request_info".toList,
    .object [("list".toList, .array (list.map .string))])]).stringify [] []

/-- The handler on the object. -/
def finishStats (stats : Fields Entry) (event : Text) (time : Int) : Fields Entry :=
  let stats :=
    if (stats.get event).isNone then stats.set event (.object (some 0) (some [])) else stats
  let entry := stats.get event
  stats.set event ((tryBlock entry time).getD (catchBlock entry))

/-- The `finish` handler on the two texts. -/
def TextFiles.finish (texts : TextFiles) (event : Text) (time : Int) : Option TextFiles :=
  texts.readStats.bind fun stats =>
    texts.readHttpCode.map fun info =>
      { report := some (dumpStats (finishStats stats event time))
        httpCode :=
          if (info.getD []).contains event then texts.httpCode
          else some (dumpHttpinfo (info.getD [] ++ [event])) }

/-- The last characters of `report.json` were not written, one at least. -/
def TextFiles.cutOff (texts : TextFiles) (missing : Nat) : TextFiles :=
  { texts with report := texts.report.map fun t => t.take (t.length - (missing + 1)) }

inductive TextEvent where
  | enter (now : Int)
  | finish (req : Request) (statusCode : Nat) (now : Int)
  /-- The process is killed while the handler writes `report.json`, and started again. -/
  | killed (req : Request) (statusCode : Nat) (now : Int) (missing : Nat)

structure TextServer where
  sTime : Int := 0
  texts : TextFiles

def TextServer.step (σ : TextServer) : TextEvent → Option TextServer
  | .enter now => some { σ with sTime := now }
  | .finish req statusCode now =>
      (σ.texts.finish (eventKey req statusCode) (now - σ.sTime)).map fun texts => { σ with texts }
  | .killed req statusCode now missing =>
      (σ.texts.finish (eventKey req statusCode) (now - σ.sTime)).map fun texts =>
        { sTime := 0, texts := texts.cutOff missing }

def TextServer.run (σ : TextServer) (events : List TextEvent) : Option TextServer :=
  events.foldlM TextServer.step σ

/-! ## What is written can be read -/

theorem mapM_map_some {α β : Type} {f : α → β} {g : β → Option α} {l : List α}
    (back : ∀ a ∈ l, g (f a) = some a) : (l.map f).mapM g = some l := by
  induction l with
  | nil => rfl
  | cons a l ih =>
      obtain ⟨first, rest⟩ := List.forall_mem_cons.mp back
      rw [List.map_cons, List.mapM_cons, first, ih rest]
      rfl

/-- The entries that the handler writes have both fields. -/
def Entry.Written : Entry → Prop
  | .object (some _) (some _) | .number _ | .string _ => True
  | _ => False

theorem timeOf_timeJson (fields : List (Text × Int)) : timeOf (timeJson fields) = some fields := by
  apply mapM_map_some
  simp

theorem entryOfJson_entryJson {entry : Entry} (written : entry.Written) :
    entryOfJson (entryJson entry) = some entry := by
  cases entry with
  | object count time =>
      cases count with
      | none => exact written.elim
      | some n =>
          cases time with
          | none => exact written.elim
          | some t =>
              have times : (t.map timeJson).mapM timeOf = some t :=
                mapM_map_some fun fields _ => timeOf_timeJson fields
              have count : (n : Int).toNat? = some n := rfl
              simp [entryJson, entryOfJson, countOf, times, count]
  | number n => simp [entryJson, entryOfJson]
  | string s => rfl

theorem written_of_entryOfJson {v : Json} {entry : Entry} (read : entryOfJson v = some entry) :
    entry.Written := by
  unfold entryOfJson at read
  split at read
  · obtain ⟨n, -, rfl⟩ := Option.map_eq_some_iff.mp read
    trivial
  · obtain rfl := Option.some.inj read
    trivial
  · split_ifs at read
    obtain ⟨n, -, time⟩ := Option.bind_eq_some_iff.mp read
    obtain ⟨t, -, rfl⟩ := Option.map_eq_some_iff.mp time
    trivial
  · cases read

theorem readStats_dumpStats {stats : Fields Entry} (written : stats.All Entry.Written)
    (httpCode : Option Text) :
    (TextFiles.mk (some (dumpStats stats)) httpCode).readStats = some stats := by
  have entries : (stats.list.map fun f => (f.1, entryJson f.2)).mapM
      (fun f => (entryOfJson f.2).map fun e => (f.1, e)) = some stats.list := by
    apply mapM_map_some
    intro f member
    simp [entryOfJson_entryJson (written f member)]
  simp only [TextFiles.readStats, dumpStats, Option.bind_some, Json.parse_stringify [] rfl,
    entries, Option.map_some, Fields.ofList_list]

theorem readHttpCode_dumpHttpinfo (report : Option Text) (list : List Text) :
    (TextFiles.mk report (some (dumpHttpinfo list))).readHttpCode = some (some list) := by
  have events : (list.map Json.string).mapM stringOf = some list := mapM_map_some fun _ _ => rfl
  simp [TextFiles.readHttpCode, dumpHttpinfo, Json.parse_stringify [] rfl, events]

/-- A report that was cut off cannot be parsed. -/
theorem readStats_cutOff (stats : Fields Entry) (httpCode : Option Text) (missing : Nat) :
    ((TextFiles.mk (some (dumpStats stats)) httpCode).cutOff missing).readStats = some .empty := by
  have whole := List.take_append_drop ((dumpStats stats).length - (missing + 1)) (dumpStats stats)
  have nonempty : 0 < (dumpStats stats).length :=
    Nat.lt_of_lt_of_le (Json.need_pos _) (Json.need_le_length [] _ [])
  have unreadable := Json.parse_beginning [] rfl rfl whole (by
    rw [← List.length_pos_iff, List.length_drop]
    omega)
  simp only [TextFiles.readStats, TextFiles.cutOff, Option.map_some, Option.bind_some, unreadable]

/-! ## The texts and the values -/

/-- The texts hold the statistics and the list of the values. -/
structure TextFiles.Shows (texts : TextFiles) (files : Files) : Prop where
  report : ∃ stats, texts.readStats = some stats ∧
    ∀ key, stats.get key = files.readStats.lookup key
  httpCode : texts.readHttpCode = some files.readHttpCode.requestInfo

theorem forall_of_mapM {α β : Type} {P : β → Prop} {g : α → Option β} {l : List α} {l' : List β}
    (read : l.mapM g = some l') (each : ∀ a b, g a = some b → P b) : ∀ b ∈ l', P b := by
  induction l generalizing l' with
  | nil =>
      obtain rfl : [] = l' := Option.some.inj read
      exact fun _ none => absurd none List.not_mem_nil
  | cons a l ih =>
      rw [List.mapM_cons] at read
      obtain ⟨b, first, rest⟩ := Option.bind_eq_some_iff.mp read
      obtain ⟨bs, inner, done⟩ := Option.bind_eq_some_iff.mp rest
      obtain rfl : b :: bs = l' := Option.some.inj done
      exact List.forall_mem_cons.mpr ⟨each a b first, ih inner⟩

theorem written_of_readStats {texts : TextFiles} {stats : Fields Entry}
    (read : texts.readStats = some stats) : stats.All Entry.Written := by
  unfold TextFiles.readStats at read
  split at read
  · obtain rfl := Option.some.inj read
    exact fun _ none => absurd none List.not_mem_nil
  · obtain ⟨entries, inner, rfl⟩ := Option.map_eq_some_iff.mp read
    apply Fields.all_ofList
    refine forall_of_mapM (P := fun f => f.2.Written) inner ?_
    intro f f' this
    obtain ⟨entry, found, rfl⟩ := Option.map_eq_some_iff.mp this
    exact written_of_entryOfJson found
  · cases read

theorem written_next (entry : Option Entry) (time : Int) :
    ((tryBlock entry time).getD (catchBlock entry)).Written := by
  unfold tryBlock
  split
  · rename_i count time'
    cases time' with
    | none => trivial
    | some t => trivial
  · unfold catchBlock
    split
    · trivial
    · split <;> trivial
    · split <;> trivial
    · trivial

theorem written_finishStats {stats : Fields Entry} (written : stats.All Entry.Written)
    (event : Text) (time : Int) : (finishStats stats event time).All Entry.Written := by
  unfold finishStats
  split
  · have absent : Entry.Written (.object (some 0) (some [])) := trivial
    exact (written.set absent event).set (written_next _ time) event
  · exact written.set (written_next _ time) event

theorem get_finishStats (stats : Fields Entry) (event : Text) (time : Int) (key : Text) :
    (finishStats stats event time).get key =
      if key = event then
        let entry := some ((stats.get event).getD (entryOf []))
        some ((tryBlock entry time).getD (catchBlock entry))
      else stats.get key := by
  have entry : ((if (stats.get event).isNone then stats.set event (.object (some 0) (some []))
      else stats).get event) = some ((stats.get event).getD (entryOf [])) := by
    cases there : stats.get event with
    | none => simp [entryOf]
    | some entry => simp [there]
  simp only [finishStats, entry, Fields.get_set]
  split
  · rfl
  · rename_i other
    split
    · rw [Fields.get_set, if_neg other]
    · rfl

theorem lookup_finish (files : Files) (event : Text) (time : Int) (key : Text) :
    (files.finish event time).readStats.lookup key =
      if key = event then
        let entry := some ((files.readStats.lookup event).getD (entryOf []))
        some ((tryBlock entry time).getD (catchBlock entry))
      else files.readStats.lookup key := by
  have report : (files.finish event time).report = some (files.readStats.insert event
      ((tryBlock (some ((files.readStats.lookup event).getD (entryOf []))) time).getD
        (catchBlock (some ((files.readStats.lookup event).getD (entryOf [])))))) := by
    simp only [Files.finish, Files.lookup_withEntry, Files.insert_withEntry]
    split <;> rfl
  rw [Files.readStats, report, Option.getD_some]
  by_cases same : key = event
  · rw [same, AList.lookup_insert, if_pos rfl]
  · rw [AList.lookup_insert_ne same, if_neg same]

/-- The list that `httpcodereport.json` holds after a finish. -/
def listed (info : Option (List Text)) (event : Text) : Option (List Text) :=
  if (info.getD []).contains event then info else some (info.getD [] ++ [event])

/-- What one finish writes, and what can be read of it afterwards. -/
theorem TextFiles.finish_spec {texts : TextFiles} {stats : Fields Entry}
    {info : Option (List Text)} (read : texts.readStats = some stats)
    (list : texts.readHttpCode = some info) (event : Text) (time : Int) :
    ∃ httpCode,
      texts.finish event time = some ⟨some (dumpStats (finishStats stats event time)), httpCode⟩ ∧
      (TextFiles.mk (some (dumpStats (finishStats stats event time))) httpCode).readStats =
        some (finishStats stats event time) ∧
      ∀ report, (TextFiles.mk report httpCode).readHttpCode = some (listed info event) := by
  have written := written_finishStats (written_of_readStats read) event time
  by_cases known : event ∈ info.getD []
  · refine ⟨texts.httpCode, ?_, readStats_dumpStats written _, fun report => ?_⟩
    · simp [TextFiles.finish, read, list, known]
    · rw [listed, if_pos (List.contains_iff_mem.mpr known)]
      exact list
  · refine ⟨some (dumpHttpinfo (info.getD [] ++ [event])), ?_, readStats_dumpStats written _,
      fun report => ?_⟩
    · simp [TextFiles.finish, read, list, known]
    · rw [listed, if_neg (mt List.contains_iff_mem.mp known)]
      exact readHttpCode_dumpHttpinfo _ _

namespace TextFiles.Shows

variable {texts : TextFiles} {files : Files}

theorem finish (shows : texts.Shows files) (event : Text) (time : Int) :
    ∃ stats httpCode, texts.finish event time = some ⟨some (dumpStats stats), httpCode⟩ ∧
      (TextFiles.mk (some (dumpStats stats)) httpCode).Shows (files.finish event time) := by
  obtain ⟨⟨stats, read, same⟩, list⟩ := shows
  obtain ⟨httpCode, written, again, lists⟩ := finish_spec read list event time
  refine ⟨_, httpCode, written, ⟨_, again, fun key => ?_⟩, ?_⟩
  · rw [get_finishStats, lookup_finish, same event, same key]
  · have info : (files.finish event time).readHttpCode.requestInfo =
        listed files.readHttpCode.requestInfo event := by
      by_cases known : event ∈ files.list
      · rw [Files.readHttpCode, Files.finish, if_neg (not_not.mpr known)]
        exact (if_pos (List.contains_iff_mem.mpr known)).symm
      · rw [Files.readHttpCode, Files.finish, if_pos known]
        exact (if_neg (mt List.contains_iff_mem.mp known)).symm
    rw [info]
    exact lists _

/-- A finish whose text is cut off: the list was written before, and the report is lost. -/
theorem cutOff {stats : Fields Entry} {httpCode : Option Text} {written : Files}
    (shows : (TextFiles.mk (some (dumpStats stats)) httpCode).Shows written) (missing : Nat) :
    ((TextFiles.mk (some (dumpStats stats)) httpCode).cutOff missing).Shows
      { written with report := none } where
  report := ⟨.empty, readStats_cutOff stats httpCode missing, fun _ => rfl⟩
  httpCode := shows.httpCode

end TextFiles.Shows

/-- What the event is to the handler on values: a text that was cut off is a damaged report,
    and a process that is started again has no start time. -/
def TextEvent.faulty : TextEvent → List FaultyEvent
  | .enter now => [.enter now]
  | .finish req statusCode now => [.finish req statusCode now noFaults]
  | .killed req statusCode now _ => [.finish req statusCode now ⟨false, .damaged⟩, .enter 0]

/-- The server on texts stands where the server on values does. -/
structure TextServer.Refines (σ : TextServer) (τ : Middleware) : Prop where
  sTime : σ.sTime = τ.sTime
  shows : σ.texts.Shows τ.files

theorem TextServer.Refines.step {σ : TextServer} {τ : Middleware} (refines : σ.Refines τ)
    (event : TextEvent) : ∃ σ', σ.step event = some σ' ∧ σ'.Refines (τ.faultyRun event.faulty) := by
  cases event with
  | enter now => exact ⟨_, rfl, rfl, refines.shows⟩
  | finish req statusCode now =>
      obtain ⟨stats, httpCode, written, shows⟩ :=
        refines.shows.finish (eventKey req statusCode) (now - σ.sTime)
      refine ⟨{ σ with texts := ⟨some (dumpStats stats), httpCode⟩ }, ?_, refines.sTime, ?_⟩
      · rw [TextServer.step, written, Option.map_some]
      · rw [refines.sTime] at shows
        exact shows
  | killed req statusCode now missing =>
      obtain ⟨stats, httpCode, written, shows⟩ :=
        refines.shows.finish (eventKey req statusCode) (now - σ.sTime)
      refine ⟨⟨0, (TextFiles.mk (some (dumpStats stats)) httpCode).cutOff missing⟩, ?_, rfl, ?_⟩
      · rw [TextServer.step, written, Option.map_some]
      · rw [refines.sTime] at shows
        exact shows.cutOff missing

theorem faultyRun_append (τ : Middleware) (a b : List FaultyEvent) :
    τ.faultyRun (a ++ b) = (τ.faultyRun a).faultyRun b := List.foldl_append

/-- On whatever sequence of requests, with the process killed in the middle of writing any of
    its reports, the server on texts does what the server on values does. -/
theorem textServer_refines {σ : TextServer} {τ : Middleware} (refines : σ.Refines τ)
    (events : List TextEvent) :
    ∃ σ', σ.run events = some σ' ∧ σ'.Refines (τ.faultyRun (events.flatMap TextEvent.faulty)) := by
  induction events generalizing σ τ with
  | nil => exact ⟨σ, rfl, refines⟩
  | cons event events ih =>
      obtain ⟨σ₁, first, refines₁⟩ := refines.step event
      obtain ⟨σ₂, rest, refines₂⟩ := ih refines₁
      refine ⟨σ₂, ?_, ?_⟩
      · rw [TextServer.run, List.foldlM_cons, first]
        exact rest
      · rw [List.flatMap_cons, faultyRun_append]
        exact refines₂

def noTexts : TextFiles := { report := none, httpCode := none }

theorem noTexts_refines : TextServer.Refines ⟨0, noTexts⟩ ⟨0, noFiles⟩ where
  sTime := rfl
  shows := { report := ⟨.empty, rfl, fun _ => rfl⟩, httpCode := rfl }

/-- Two requests, the second of which is answered just before the process is killed. -/
def killedOnce : List TextEvent :=
  [.enter 100, .finish pageRequest 200 130, .enter 140, .killed missingRequest 404 141 3]

theorem textServer_refines_killedOnce :
    TextServer.Refines ⟨0, noTexts⟩ ⟨0, noFiles⟩ ∧
    ∃ σ', (⟨0, noTexts⟩ : TextServer).run killedOnce = some σ' ∧
      σ'.Refines ((⟨0, noFiles⟩ : Middleware).faultyRun (killedOnce.flatMap TextEvent.faulty)) :=
  ⟨noTexts_refines, textServer_refines noTexts_refines killedOnce⟩

/-! ## The log in the text -/

/-- The text of the report holds the log, and the list can be read. -/
def TextFiles.Holds (texts : TextFiles) (log : TimeLog) : Prop :=
  (∃ stats, texts.readStats = some stats ∧ ∀ key, stats.get key = (log key).map entryOf) ∧
    ∃ info, texts.readHttpCode = some info

/-- The log after a run: a process that is killed loses all of it. -/
def TimeLog.afterKills (log : TimeLog) : Int → List TextEvent → TimeLog
  | _, [] => log
  | _, .enter now :: events => log.afterKills now events
  | sTime, .finish req statusCode now :: events =>
      (log.add (eventKey req statusCode) (now - sTime)).afterKills sTime events
  | _, .killed _ _ _ _ :: events => TimeLog.afterKills (fun _ => none) 0 events

theorem get_finishStats_log {stats : Fields Entry} {log : TimeLog}
    (entries : ∀ key, stats.get key = (log key).map entryOf) (event : Text) (time : Int)
    (key : Text) :
    (finishStats stats event time).get key = (log.add event time key).map entryOf := by
  have before : (stats.get event).getD (entryOf []) = entryOf ((log event).getD []) := by
    rw [entries event]
    cases log event <;> rfl
  rw [get_finishStats, before]
  by_cases same : key = event
  · subst same
    simp [tryBlock_entryOf, TimeLog.add]
  · rw [if_neg same, entries key, TimeLog.add, Function.update_of_ne same]

theorem TextFiles.Holds.step {σ : TextServer} {log : TimeLog} (holds : σ.texts.Holds log)
    (event : TextEvent) :
    ∃ σ', σ.step event = some σ' ∧ ∃ log', σ'.texts.Holds log' ∧
      ∀ events, log.afterKills σ.sTime (event :: events) = log'.afterKills σ'.sTime events := by
  obtain ⟨⟨stats, read, entries⟩, info, list⟩ := holds
  cases event with
  | enter now =>
      exact ⟨_, rfl, log, ⟨⟨stats, read, entries⟩, info, list⟩, fun _ => rfl⟩
  | finish req statusCode now =>
      obtain ⟨httpCode, written, again, lists⟩ :=
        finish_spec read list (eventKey req statusCode) (now - σ.sTime)
      refine ⟨{ σ with texts := _ }, ?_, _, ⟨⟨_, again, ?_⟩, _, lists _⟩, fun _ => rfl⟩
      · rw [TextServer.step, written, Option.map_some]
      · exact get_finishStats_log entries _ _
  | killed req statusCode now missing =>
      obtain ⟨httpCode, written, again, lists⟩ :=
        finish_spec read list (eventKey req statusCode) (now - σ.sTime)
      have lost := readStats_cutOff
        (finishStats stats (eventKey req statusCode) (now - σ.sTime)) httpCode missing
      refine ⟨⟨0, _⟩, ?_, _, ⟨⟨_, lost, fun _ => rfl⟩, _, lists _⟩, fun _ => rfl⟩
      rw [TextServer.step, written, Option.map_some]
      rfl

/-- After any run the text of the report holds the response times of all finishes since the
    process was last killed while writing it, and nothing else. -/
theorem reportText_run (σ : TextServer) (log : TimeLog) (holds : σ.texts.Holds log)
    (events : List TextEvent) :
    ∃ σ', σ.run events = some σ' ∧ σ'.texts.Holds (log.afterKills σ.sTime events) := by
  induction events generalizing σ log with
  | nil => exact ⟨σ, rfl, holds⟩
  | cons event events ih =>
      obtain ⟨σ₁, first, log₁, holds₁, same⟩ := holds.step event
      obtain ⟨σ₂, rest, holds₂⟩ := ih σ₁ log₁ holds₁
      refine ⟨σ₂, ?_, ?_⟩
      · rw [TextServer.run, List.foldlM_cons, first]
        exact rest
      · rw [same]
        exact holds₂

theorem holds_noTexts : noTexts.Holds fun _ => none :=
  ⟨⟨.empty, rfl, fun _ => rfl⟩, none, rfl⟩

theorem reportText_run_killedOnce :
    noTexts.Holds (fun _ => none) ∧
    ∃ σ', (⟨0, noTexts⟩ : TextServer).run killedOnce = some σ' ∧
      σ'.texts.Holds (TimeLog.afterKills (fun _ => none) 0 killedOnce) :=
  ⟨holds_noTexts, reportText_run ⟨0, noTexts⟩ _ holds_noTexts killedOnce⟩

end OslabProfiler.Server
