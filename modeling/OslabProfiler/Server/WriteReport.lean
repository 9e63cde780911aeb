import OslabProfiler.Server.ReportText
import OslabProfiler.Server.PathTree

/-! # Adding a response time in the text

`/write` adds a response time to `public/report.json`. It does so in the text of the list:
the first closing bracket becomes a comma, and the new element with a closing bracket is put
behind it. That is the list with one more element exactly when the list is not empty and no
name in it has a bracket. Otherwise the text cannot be parsed, at this request and at every
later one. The handler also logs what it has read, and an object with a property `toString`
cannot be put into a text.

The file is parsed and printed again as a whole, which changes what is not written the way
`JSON.stringify` writes it.
-/

namespace OslabProfiler.Server

open Lib

/-! ## What is printed of what was read -/

/-- An integer that JavaScript counts exactly. -/
def isSafe (z : Int) : Bool := -2 ^ 53 < z && z < 2 ^ 53

/-- What JavaScript does with numbers, which is left open but for the integers that it counts
    exactly: what `JSON.stringify` prints for a number that was read from a literal, and what
    `+ 1` makes of a value or of `undefined`, as it is printed and as a text. The sum is `none`
    when it throws. -/
structure Numbers where
  print : JsonLiteral → Json
  plusOne : Option Json → Option (Json × Text)
  print_int : ∀ z, isSafe z = true → print (intLiteral z) = .number (intLiteral z)
  plusOne_int : ∀ z, isSafe z = true → isSafe (z + 1) = true →
    plusOne (some (.number (intLiteral z))) = some (.number (intLiteral (z + 1)), printInt (z + 1))

mutual

/-- The value that is printed for one that was read. Of fields with one name the last one
    counts, and the names that are indices come first. -/
def Numbers.asPrinted (js : Numbers) : Json → Json
  | .number l => js.print l
  | .array items => .array (js.itemsAsPrinted items)
  | .object fields => .object (enumerate (Fields.ofList (js.fieldsAsPrinted fields)).list)
  | v => v

def Numbers.itemsAsPrinted (js : Numbers) : List Json → List Json
  | [] => []
  | v :: items => js.asPrinted v :: js.itemsAsPrinted items

def Numbers.fieldsAsPrinted (js : Numbers) : List (Text × Json) → List (Text × Json)
  | [] => []
  | (key, v) :: fields => (key, js.asPrinted v) :: js.fieldsAsPrinted fields

end

/-- `JSON.stringify(v, null, gap)`. -/
def Numbers.jsonText (js : Numbers) (gap : Text) (v : Json) : Text :=
  (js.asPrinted v).stringify gap []

mutual

/-- The value can be put into a text: `toString` has not been replaced by a property. -/
def inText : Json → Bool
  | .array items => itemsInText items
  | .object fields => !(fields.map Prod.fst).contains "toString".toList
  | _ => true

def itemsInText : List Json → Bool
  | [] => true
  | v :: items => inText v && itemsInText items

end

/-! ## The handler -/

/-- `text.replace(c, d)` for texts of one character. -/
def replaceFirst (c d : Char) : Text → Text
  | [] => []
  | e :: l => if e = c then d :: l else e :: replaceFirst c d l

/-- `JSON.parse` of the list with one more element, which is then logged. -/
def appendTime (js : Numbers) (time : Json) (str : Text) (responseTime : Int) : Option Json :=
  let timelist := js.jsonText [] time
  let element := js.jsonText [] (.object [(str, .number (intLiteral responseTime))])
  (Json.parse (replaceFirst ']' ',' timelist ++ element ++ [']'])).filter inText

def writeKey : Text := "GET /cpuinfo/on 200".toList

def countName : Text := "Count".toList

def timeName : Text := "Time".toList

/-- The entry with its new `Count` and `Time`; `none` when the handler throws. -/
def writeEntry (js : Numbers) (entry : Json) (now : Int) : Option Json :=
  match entry with
  | .object fields =>
      let entry := Fields.ofList fields
      (js.plusOne (entry.get countName)).bind fun currentCnt =>
        (entry.get timeName).bind fun time =>
          let str := "response_time_".toList ++ currentCnt.2
          (appendTime js time str now).map fun time =>
            .object ((entry.set countName currentCnt.1).set timeName time).list
  -- Other values have no `Time`.
  | _ => none

def fourSpaces : Text := [' ', ' ', ' ', ' ']

/-- What `/write` puts into the file; `none` when it throws and leaves the file alone. -/
def write (js : Numbers) (file : Text) (now : Int) : Option Text :=
  match Json.parse file with
  | some (.object fields) =>
      let jsondata := Fields.ofList fields
      (jsondata.get writeKey).bind fun entry =>
        (writeEntry js entry now).bind fun entry =>
          let jsondata := Json.object (jsondata.set writeKey entry).list
          if inText (js.asPrinted jsondata) then some (js.jsonText fourSpaces jsondata) else none
  | _ => none

/-- The file after requests at these times, and which of them were answered. -/
def writes (js : Numbers) (file : Text) : List Int → Text × List Bool
  | [] => (file, [])
  | now :: nows =>
      match write js file now with
      | some file' => ((writes js file' nows).1, true :: (writes js file' nows).2)
      | none => ((writes js file nows).1, false :: (writes js file nows).2)

/-! ## The first bracket -/

section ReplaceFirst

variable {c d : Char} {a : Text}

theorem replaceFirst_of_not_mem (absent : c ∉ a) (b : Text) :
    replaceFirst c d (a ++ b) = a ++ replaceFirst c d b := by
  induction a with
  | nil => rfl
  | cons e a ih =>
      obtain ⟨other, rest⟩ := not_or.mp (mt List.mem_cons.mpr absent)
      rw [List.cons_append, replaceFirst, if_neg (Ne.symm other), ih rest, List.cons_append]

theorem replaceFirst_of_mem (present : c ∈ a) (b : Text) :
    replaceFirst c d (a ++ b) = replaceFirst c d a ++ b := by
  induction a with
  | nil => exact absurd present List.not_mem_nil
  | cons e a ih =>
      by_cases here : e = c
      · simp [replaceFirst, here]
      · have later := (List.mem_cons.mp present).resolve_left (Ne.symm here)
        simp [replaceFirst, here, ih later]

end ReplaceFirst

theorem hexDigit_ne_bracket {n : Nat} (small : n < 16) : Json.hexDigit n ≠ ']' := by
  interval_cases n <;> decide

theorem bracket_mem_escapeChar (e : Char) : ']' ∈ Json.escapeChar e ↔ e = ']' := by
  constructor
  · intro member
    obtain ⟨plain, -⟩ | ⟨e', two, -, code⟩ | ⟨six, control⟩ := Json.escapeChar_cases e
    · rw [plain, List.mem_singleton] at member
      exact member.symm
    · rw [two, List.mem_cons, List.mem_singleton] at member
      obtain backslash | rfl := member
      · cases backslash
      · cases code
    · have high := hexDigit_ne_bracket (n := e.toNat / 16) (by omega)
      have low := hexDigit_ne_bracket (n := e.toNat % 16) (by omega)
      simp [six, high.symm, low.symm] at member
  · rintro rfl
    decide

theorem bracket_mem_escape (s : Text) : ']' ∈ Json.escape s ↔ ']' ∈ s := by
  simp [Json.escape, bracket_mem_escapeChar]

theorem bracket_mem_quote (s : Text) : ']' ∈ Json.quote s ↔ ']' ∈ s := by
  simp [Json.quote, bracket_mem_escape]

theorem replaceFirst_escape (s : Text) :
    replaceFirst ']' ',' (Json.escape s) = Json.escape (replaceFirst ']' ',' s) := by
  induction s with
  | nil => rfl
  | cons e s ih =>
      by_cases here : e = ']'
      · subst here
        rfl
      · have absent : ']' ∉ Json.escapeChar e := mt (bracket_mem_escapeChar e).mp here
        rw [Json.escape_cons, replaceFirst_of_not_mem absent, ih, replaceFirst, if_neg here,
          Json.escape_cons]

/-- In a string that has a bracket, the bracket is replaced in the string. -/
theorem replaceFirst_quote {s : Text} (present : ']' ∈ s) (rest : Text) :
    replaceFirst ']' ',' (Json.quote s ++ rest) = Json.quote (replaceFirst ']' ',' s) ++ rest := by
  have inside := (bracket_mem_escape s).mpr present
  have quote : replaceFirst ']' ',' (Json.quote s) = Json.quote (replaceFirst ']' ',' s) := by
    rw [Json.quote, List.cons_append, replaceFirst, if_neg (by decide), replaceFirst_of_mem inside,
      replaceFirst_escape]
    rfl
  rw [replaceFirst_of_mem ((bracket_mem_quote s).mpr present), quote]

/-! ## The text of the list -/

theorem bracket_not_mem_printInt (z : Int) : ']' ∉ printInt z := by
  intro member
  cases List.all_eq_true.mp (wordChars_printInt z) _ member

/-- A field of an element, as a JSON value. -/
def fieldJson (f : Text × Int) : Text × Json := (f.1, .number (intLiteral f.2))

/-- A field and its value in the text, with what comes behind it. -/
def fieldText (f : Text × Int) (rest : Text) : Text :=
  Json.quote f.1 ++ (':' :: (printInt f.2 ++ rest))

theorem fieldText_append (f : Text × Int) (a b : Text) :
    fieldText f a ++ b = fieldText f (a ++ b) := by
  simp [fieldText]

theorem stringify_intLiteral (gap indent : Text) (z : Int) :
    (Json.number (intLiteral z)).stringify gap indent = printInt z := rfl

theorem moreFields_cons (f : Text × Int) (fields : List (Text × Int)) :
    Json.moreFields [] [] ((f :: fields).map fieldJson) =
      ',' :: fieldText f (Json.moreFields [] [] (fields.map fieldJson)) := by
  simp [fieldJson, fieldText, Json.moreFields, Json.line, Json.colon, stringify_intLiteral]

theorem timeJson_cons (f : Text × Int) (fields : List (Text × Int)) :
    (timeJson (f :: fields)).stringify [] [] =
      '\x7b' :: fieldText f (Json.moreFields [] [] (fields.map fieldJson) ++ ['\x7d']) := by
  have rest : (fields.map fun f => (f.1, Json.number (intLiteral f.2))) = fields.map fieldJson := rfl
  simp [timeJson, fieldText, Json.line, Json.colon, Json.stringify.eq_9, stringify_intLiteral, rest]

def NoBracket (fields : List (Text × Int)) : Prop := ∀ f ∈ fields, ']' ∉ f.1

theorem bracket_mem_fieldText (f : Text × Int) (rest : Text) :
    ']' ∈ fieldText f rest ↔ ']' ∈ f.1 ∨ ']' ∈ rest := by
  simp [fieldText, bracket_mem_quote, bracket_not_mem_printInt]

/-- A bracket in the name is replaced there, and otherwise behind the field. -/
theorem replaceFirst_fieldText (f : Text × Int) (rest : Text) :
    replaceFirst ']' ',' (fieldText f rest) =
      if ']' ∈ f.1 then fieldText (replaceFirst ']' ',' f.1, f.2) rest
      else fieldText f (replaceFirst ']' ',' rest) := by
  split
  · rename_i present
    rw [fieldText, replaceFirst_quote present, fieldText]
  · rename_i absent
    rw [fieldText, replaceFirst_of_not_mem (mt (bracket_mem_quote f.1).mp absent), replaceFirst,
      if_neg (by decide), replaceFirst_of_not_mem (bracket_not_mem_printInt _), fieldText]

theorem bracket_mem_moreFields (fields : List (Text × Int)) :
    ']' ∈ Json.moreFields [] [] (fields.map fieldJson) ↔ ¬ NoBracket fields := by
  induction fields with
  | nil => simp [Json.moreFields, NoBracket]
  | cons f fields ih =>
      rw [moreFields_cons, List.mem_cons, bracket_mem_fieldText, ih, NoBracket, NoBracket,
        List.forall_mem_cons, not_and_or, not_not]
      exact or_iff_right (by decide)

/-- In fields with a bracket in a name, the bracket is replaced in the name. -/
theorem replaceFirst_moreFields (fields : List (Text × Int)) (bracket : ¬ NoBracket fields)
    (rest : Text) :
    ∃ fields' : List (Text × Int),
      replaceFirst ']' ',' (Json.moreFields [] [] (fields.map fieldJson) ++ rest) =
        Json.moreFields [] [] (fields'.map fieldJson) ++ rest := by
  induction fields with
  | nil => exact absurd (fun f none => absurd none List.not_mem_nil) bracket
  | cons f fields ih =>
      rw [moreFields_cons, List.cons_append, fieldText_append, replaceFirst, if_neg (by decide),
        replaceFirst_fieldText]
      split
      · refine ⟨(replaceFirst ']' ',' f.1, f.2) :: fields, ?_⟩
        rw [moreFields_cons, List.cons_append, fieldText_append]
      · rename_i absent
        obtain ⟨fields', same⟩ := ih fun none =>
          bracket (List.forall_mem_cons.mpr ⟨absent, none⟩)
        refine ⟨f :: fields', ?_⟩
        rw [moreFields_cons, List.cons_append, fieldText_append, same]

theorem bracket_mem_timeJson (fields : List (Text × Int)) :
    ']' ∈ (timeJson fields).stringify [] [] ↔ ¬ NoBracket fields := by
  cases fields with
  | nil => simp [timeJson, Json.stringify, NoBracket]
  | cons f fields =>
      have more := bracket_mem_moreFields (f :: fields)
      rw [moreFields_cons, List.mem_cons, bracket_mem_fieldText] at more
      rw [timeJson_cons, List.mem_cons, bracket_mem_fieldText, List.mem_append, ← more]
      simp

theorem replaceFirst_timeJson (fields : List (Text × Int)) (bracket : ¬ NoBracket fields)
    (rest : Text) :
    ∃ fields', replaceFirst ']' ',' ((timeJson fields).stringify [] [] ++ rest) =
      (timeJson fields').stringify [] [] ++ rest := by
  cases fields with
  | nil => exact absurd (fun f none => absurd none List.not_mem_nil) bracket
  | cons f fields =>
      have text : ∀ (f : Text × Int) (fields : List (Text × Int)),
          (timeJson (f :: fields)).stringify [] [] ++ rest =
            '\x7b' :: fieldText f (Json.moreFields [] [] (fields.map fieldJson) ++
              (['\x7d'] ++ rest)) := by
        intro f fields
        rw [timeJson_cons, List.cons_append, fieldText_append, List.append_assoc]
      rw [text, replaceFirst, if_neg (by decide), replaceFirst_fieldText]
      split
      · exact ⟨(replaceFirst ']' ',' f.1, f.2) :: fields, (text _ _).symm⟩
      · rename_i absent
        obtain ⟨fields', same⟩ := replaceFirst_moreFields fields
          (fun none => bracket (List.forall_mem_cons.mpr ⟨absent, none⟩)) (['\x7d'] ++ rest)
        refine ⟨f :: fields', ?_⟩
        rw [text, same]

/-- The elements of a list that is not empty, without its brackets. -/
def itemsText (v : Json) (vs : List Json) : Text :=
  v.stringify [] [] ++ Json.moreItems [] [] vs

theorem stringify_array (v : Json) (vs : List Json) :
    (Json.array (v :: vs)).stringify [] [] = '[' :: (itemsText v vs ++ [']']) := by
  simp [Json.stringify, Json.line, itemsText]

theorem moreItems_cons (v : Json) (vs : List Json) :
    Json.moreItems [] [] (v :: vs) = ',' :: itemsText v vs := by
  simp [Json.moreItems, Json.line, itemsText]

theorem itemsText_snoc (v : Json) (vs : List Json) (u : Json) :
    itemsText v (vs ++ [u]) = itemsText v vs ++ (',' :: u.stringify [] []) := by
  induction vs generalizing v with
  | nil => simp [itemsText, Json.moreItems, Json.line]
  | cons w vs ih =>
      rw [itemsText, itemsText, List.cons_append, moreItems_cons, moreItems_cons, ih]
      simp

/-- No name in the list has a bracket. -/
def Unbracketed (time : List (List (Text × Int))) : Prop := ∀ fields ∈ time, NoBracket fields

theorem bracket_mem_itemsText (fields : List (Text × Int)) (time : List (List (Text × Int))) :
    ']' ∈ itemsText (timeJson fields) (time.map timeJson) ↔ ¬ Unbracketed (fields :: time) := by
  induction time generalizing fields with
  | nil => simp [itemsText, Json.moreItems, bracket_mem_timeJson, Unbracketed]
  | cons other time ih =>
      rw [itemsText, List.mem_append, bracket_mem_timeJson, List.map_cons, moreItems_cons,
        List.mem_cons, ih, Unbracketed, Unbracketed, List.forall_mem_cons (a := fields),
        not_and_or]
      simp

theorem replaceFirst_itemsText (fields : List (Text × Int)) {time : List (List (Text × Int))}
    (bracket : ¬ Unbracketed (fields :: time)) (rest : Text) :
    ∃ fields' time', replaceFirst ']' ',' (itemsText (timeJson fields) (time.map timeJson) ++ rest) =
      itemsText (timeJson fields') ((time' : List (List (Text × Int))).map timeJson) ++ rest := by
  induction time generalizing fields with
  | nil =>
      obtain ⟨fields', same⟩ := replaceFirst_timeJson fields
        (fun none => bracket (by simpa [Unbracketed] using none)) rest
      refine ⟨fields', [], ?_⟩
      simpa [itemsText, Json.moreItems] using same
  | cons other time ih =>
      by_cases here : NoBracket fields
      · obtain ⟨other', time', same⟩ := ih other fun none =>
          bracket (List.forall_mem_cons.mpr ⟨here, none⟩)
        refine ⟨fields, other' :: time', ?_⟩
        have absent : ']' ∉ (timeJson fields).stringify [] [] := fun member =>
          (bracket_mem_timeJson fields).mp member here
        have text : ∀ (other : List (Text × Int)) (time : List (List (Text × Int))),
            itemsText (timeJson fields) ((other :: time).map timeJson) ++ rest =
              (timeJson fields).stringify [] [] ++
                (',' :: (itemsText (timeJson other) (time.map timeJson) ++ rest)) := by
          intro other time
          rw [itemsText, List.map_cons, moreItems_cons, List.append_assoc, List.cons_append]
        rw [text, replaceFirst_of_not_mem absent, replaceFirst, if_neg (by decide), same, text]
      · obtain ⟨fields', same⟩ := replaceFirst_timeJson fields here
          (Json.moreItems [] [] ((other :: time).map timeJson) ++ rest)
        refine ⟨fields', other :: time, ?_⟩
        rw [itemsText, List.append_assoc, same, itemsText, List.append_assoc]

/-! ## Values that are printed as they were read -/

mutual

/-- All numbers are integers that are counted exactly, as they are printed, and the names in an
    object are distinct and no indices. -/
def isCanonical : Json → Bool
  | .number l => (intOf (.number l)).any fun z => isSafe z && l.text = printInt z
  | .array items => itemsCanonical items
  | .object fields =>
      (fields.map Prod.fst).Nodup && fields.all (fun f => !isIndex f.1) && fieldsCanonical fields
  | _ => true

def itemsCanonical : List Json → Bool
  | [] => true
  | v :: items => isCanonical v && itemsCanonical items

def fieldsCanonical : List (Text × Json) → Bool
  | [] => true
  | (_, v) :: fields => isCanonical v && fieldsCanonical fields

end

theorem itemsCanonical_iff {items : List Json} :
    itemsCanonical items = true ↔ ∀ v ∈ items, isCanonical v = true := by
  induction items with
  | nil => simp [itemsCanonical]
  | cons v items ih => rw [itemsCanonical, Bool.and_eq_true, ih, List.forall_mem_cons]

theorem fieldsCanonical_iff {fields : List (Text × Json)} :
    fieldsCanonical fields = true ↔ ∀ f ∈ fields, isCanonical f.2 = true := by
  induction fields with
  | nil => simp [fieldsCanonical]
  | cons f fields ih =>
      obtain ⟨key, v⟩ := f
      rw [fieldsCanonical, Bool.and_eq_true, ih, List.forall_mem_cons]

theorem isCanonical_int {z : Int} (safe : isSafe z = true) :
    isCanonical (.number (intLiteral z)) = true := by
  rw [isCanonical, intOf_intLiteral, Option.any_some, safe]
  simp [intLiteral]

theorem isCanonical_object {fields : List (Text × Json)} :
    isCanonical (.object fields) = true ↔ (fields.map Prod.fst).Nodup ∧
      (∀ f ∈ fields, isIndex f.1 = false) ∧ ∀ f ∈ fields, isCanonical f.2 = true := by
  rw [isCanonical, Bool.and_eq_true, Bool.and_eq_true, decide_eq_true_iff, List.all_eq_true,
    fieldsCanonical_iff, and_assoc]
  simp

section Canonical

variable (js : Numbers)

theorem itemsAsPrinted_eq (items : List Json) : js.itemsAsPrinted items = items.map js.asPrinted := by
  induction items with
  | nil => rfl
  | cons v items ih => rw [Numbers.itemsAsPrinted, ih, List.map_cons]

theorem fieldsAsPrinted_eq (fields : List (Text × Json)) :
    js.fieldsAsPrinted fields = fields.map fun f => (f.1, js.asPrinted f.2) := by
  induction fields with
  | nil => rfl
  | cons f fields ih =>
      obtain ⟨key, v⟩ := f
      rw [Numbers.fieldsAsPrinted, ih, List.map_cons]

theorem asPrinted_of_canonical (v : Json) (canonical : isCanonical v = true) :
    js.asPrinted v = v := by
  induction v using Json.induct with
  | null => rfl
  | bool b => rfl
  | string s => rfl
  | number l =>
      rw [isCanonical, Option.any_eq_true] at canonical
      obtain ⟨z, -, checked⟩ := canonical
      rw [Bool.and_eq_true, decide_eq_true_iff] at checked
      have printed : l = intLiteral z := by
        cases l
        exact (JsonLiteral.mk.injEq ..).mpr checked.2
      rw [Numbers.asPrinted, printed, js.print_int z checked.1]
  | array items ih =>
      have each := itemsCanonical_iff.mp canonical
      rw [Numbers.asPrinted, itemsAsPrinted_eq, List.map_congr_left fun v member =>
        ih v member (each v member), List.map_id']
  | object fields ih =>
      obtain ⟨nodup, names, each⟩ := isCanonical_object.mp canonical
      have same : js.fieldsAsPrinted fields = fields := by
        rw [fieldsAsPrinted_eq]
        conv_rhs => rw [← List.map_id fields]
        exact List.map_congr_left fun f member => by rw [ih f member (each f member)]; rfl
      rw [Numbers.asPrinted, same, Fields.list_ofList nodup, enumerate_of_names names]

theorem nodup_asPrinted (fields : List (Text × Json)) :
    ((enumerate (Fields.ofList (js.fieldsAsPrinted fields)).list).map Prod.fst).Nodup :=
  ((enumerate_perm _).map Prod.fst).nodup_iff.mpr (Fields.ofList _).nodup

/-- What the file holds after it was printed. -/
theorem get_asPrinted (o : Fields Json) (key : Text) :
    (Fields.ofList (enumerate (Fields.ofList (js.fieldsAsPrinted o.list)).list)).get key =
      (o.get key).map js.asPrinted := by
  have nodup : ((js.fieldsAsPrinted o.list).map Prod.fst).Nodup := by
    rw [fieldsAsPrinted_eq, List.map_map]
    exact o.nodup
  rw [Fields.get_ofList_perm (Fields.ofList _).nodup (enumerate_perm _), Fields.ofList_list,
    Fields.get, Fields.list_ofList nodup, fieldsAsPrinted_eq, Fields.lookup_map]
  rfl

end Canonical

theorem timeJson_fields (fields : List (Text × Int)) :
    timeJson fields = .object (fields.map fieldJson) := rfl

/-! ## The new list -/

/-- No element of the list has a property `toString`. -/
def Loggable (time : List (List (Text × Int))) : Prop :=
  ∀ fields ∈ time, "toString".toList ∉ fields.map Prod.fst

theorem inText_timeJson (fields : List (Text × Int)) :
    inText (timeJson fields) = true ↔ "toString".toList ∉ fields.map Prod.fst := by
  have names : (fields.map fieldJson).map Prod.fst = fields.map Prod.fst := by
    rw [List.map_map]
    rfl
  rw [timeJson_fields, inText, names, Bool.not_eq_true', List.contains_eq_mem,
    decide_eq_false_iff_not]

theorem inText_times (time : List (List (Text × Int))) :
    inText (.array (time.map timeJson)) = true ↔ Loggable time := by
  rw [inText]
  induction time with
  | nil => simp [itemsInText, Loggable]
  | cons fields time ih =>
      rw [List.map_cons, itemsInText, Bool.and_eq_true, inText_timeJson, ih, Loggable, Loggable,
        List.forall_mem_cons]

/-- The text that is parsed for the new list. -/
def longerText (time : List (List (Text × Int))) (str : Text) (now : Int) : Text :=
  replaceFirst ']' ',' ((Json.array (time.map timeJson)).stringify [] []) ++
    (timeJson [(str, now)]).stringify [] [] ++ [']']

theorem parse_longerText {time : List (List (Text × Int))} (nonempty : time ≠ [])
    (unbracketed : Unbracketed time) (str : Text) (now : Int) :
    Json.parse (longerText time str now) =
      some (.array ((time ++ [[(str, now)]]).map timeJson)) := by
  cases time with
  | nil => exact absurd rfl nonempty
  | cons fields time =>
      have absent : ']' ∉ '[' :: itemsText (timeJson fields) (time.map timeJson) := by
        simp [bracket_mem_itemsText, unbracketed]
      have text : longerText (fields :: time) str now =
          (Json.array (((fields :: time) ++ [[(str, now)]]).map timeJson)).stringify [] [] := by
        have longer : ((fields :: time) ++ [[(str, now)]]).map timeJson =
            timeJson fields :: (time.map timeJson ++ [timeJson [(str, now)]]) := by simp
        rw [longerText, List.map_cons, stringify_array, ← List.cons_append,
          replaceFirst_of_not_mem absent, longer, stringify_array, itemsText_snoc]
        simp [replaceFirst]
      rw [text, Json.parse_stringify [] rfl]

/-- A text that goes on behind a value cannot be parsed. -/
theorem parse_more (v : Json) {c : Char} (other : isWordChar c = false)
    (visible : Json.isSpace c = false) (rest : Text) :
    Json.parse (v.stringify [] [] ++ c :: rest) = none := by
  have enough : v.need ≤ (v.stringify [] [] ++ c :: rest).length := by
    have := Json.need_le_length [] v []
    rw [List.length_append]
    omega
  have read := (Json.value_stringify [] rfl v).value_eq [] rfl enough
    (Json.stops_cons other rest)
  rw [Json.parse, read, Option.bind_some, if_neg]
  rw [Json.skip, List.dropWhile_cons_of_neg (by rw [visible]; exact Bool.false_ne_true)]
  exact List.cons_ne_nil _ _

theorem parse_longerText_bracket {time : List (List (Text × Int))} (bracket : ¬ Unbracketed time)
    (str : Text) (now : Int) : Json.parse (longerText time str now) = none := by
  cases time with
  | nil => exact absurd (fun _ none => absurd none List.not_mem_nil) bracket
  | cons fields time =>
      obtain ⟨fields', time', same⟩ := replaceFirst_itemsText fields bracket [']']
      have element : ∃ l, (timeJson [(str, now)]).stringify [] [] = '\x7b' :: l :=
        ⟨_, timeJson_cons _ _⟩
      obtain ⟨l, begins⟩ := element
      rw [longerText, List.map_cons, stringify_array, replaceFirst, if_neg (by decide), same,
        ← stringify_array, begins, List.append_assoc, List.cons_append]
      exact parse_more _ rfl rfl _

theorem parse_comma (l : Text) : Json.parse ('[' :: ',' :: l) = none := by
  have value : ∀ n, Json.value n (',' :: l) = none := by
    intro n
    cases n with
    | zero => rfl
    | succ n => simp only [Json.value, Json.next_sign (c := ',') rfl]
  have items : ∀ n, Json.items n (',' :: l) = none := by
    intro n
    cases n with
    | zero => rfl
    | succ n => simp only [Json.items, value, Option.bind_none]
  rw [Json.parse, List.length_cons,
    Json.value_items (Json.next_sign (c := '[') rfl _) (Json.next_sign (c := ',') rfl _) (by simp),
    items]
  rfl

theorem parse_longerText_empty (str : Text) (now : Int) :
    Json.parse (longerText [] str now) = none :=
  parse_comma _

section Append

variable (js : Numbers) {time : List (List (Text × Int))} {str : Text} {now : Int}
  (canonical : ∀ fields ∈ time, isCanonical (timeJson fields) = true)
  (name : isIndex str = false) (safe : isSafe now = true)

include name safe in
theorem isCanonical_element : isCanonical (timeJson [(str, now)]) = true := by
  rw [timeJson_fields, isCanonical_object]
  simp [fieldJson, name, isCanonical_int safe]

include canonical name safe

theorem appendTime_eq : appendTime js (.array (time.map timeJson)) str now =
    (Json.parse (longerText time str now)).filter inText := by
  have list : isCanonical (.array (time.map timeJson)) = true := by
    rw [isCanonical, itemsCanonical_iff, List.forall_mem_map]
    exact canonical
  have element := asPrinted_of_canonical js _ (isCanonical_element name safe)
  rw [timeJson, List.map_singleton] at element
  simp only [appendTime, Numbers.jsonText, asPrinted_of_canonical js _ list, element]
  rfl

/-- The new element is added, or the handler throws. -/
theorem appendTime_push (nonempty : time ≠ []) (unbracketed : Unbracketed time)
    (loggable : Loggable (time ++ [[(str, now)]])) :
    appendTime js (.array (time.map timeJson)) str now =
      some (.array ((time ++ [[(str, now)]]).map timeJson)) := by
  rw [appendTime_eq js canonical name safe, parse_longerText nonempty unbracketed,
    Option.filter_some, if_pos ((inText_times _).mpr loggable)]

theorem appendTime_eq_none
    (stuck : ¬ (time ≠ [] ∧ Unbracketed time ∧ Loggable time)) :
    appendTime js (.array (time.map timeJson)) str now = none := by
  rw [appendTime_eq js canonical name safe]
  by_cases empty : time = []
  · rw [empty, parse_longerText_empty, Option.filter_none]
  by_cases unbracketed : Unbracketed time
  · have unloggable : ¬ Loggable (time ++ [[(str, now)]]) := fun loggable =>
      stuck ⟨empty, unbracketed, fun fields member => loggable fields (List.mem_append_left _ member)⟩
    rw [parse_longerText empty unbracketed, Option.filter_some,
      if_neg (mt (inText_times _).mp unloggable)]
  · rw [parse_longerText_bracket unbracketed, Option.filter_none]

end Append

/-! ## Runs of requests -/

def timesEntry (count : Int) (time : List (List (Text × Int))) : Json :=
  .object [(countName, .number (intLiteral count)), (timeName, .array (time.map timeJson))]

/-- The file holds this count and list under the key and these values under the others, all of
    them as they are printed. -/
structure HoldsTimes (file : Text) (others : Text → Option Json) (count : Int)
    (time : List (List (Text × Int))) : Prop where
  parsed : ∃ fields, Json.parse file = some (.object fields) ∧
    (Fields.ofList fields).get writeKey = some (timesEntry count time) ∧
    ∀ key, key ≠ writeKey → (Fields.ofList fields).get key = others key
  count : isSafe count = true
  times : ∀ fields ∈ time, isCanonical (timeJson fields) = true
  others : ∀ key v, others key = some v → isCanonical v = true

/-- A file that the text surgery works on, and that can be logged. -/
structure Extensible (others : Text → Option Json) (time : List (List (Text × Int))) : Prop where
  nonempty : time ≠ []
  unbracketed : Unbracketed time
  loggable : Loggable time
  noToString : others "toString".toList = none

/-- The name of the element with this number. -/
def timeKey (n : Int) : Text := "response_time_".toList ++ printInt n

theorem isIndex_timeKey (n : Int) : isIndex (timeKey n) = false := by
  have letters : ("response_time_".toList ++ printInt n).all Char.isDigit = false := by
    rw [List.all_append]
    exact Bool.and_eq_false_imp.mpr fun digits => absurd digits (by decide)
  unfold timeKey
  rw [isIndex, letters]
  simp

theorem timeKey_ne_toString (n : Int) : timeKey n ≠ "toString".toList := by
  intro same
  have head : 'r' = 't' := (List.cons.inj same).1
  exact absurd head (by decide)

theorem writeEntry_timesEntry (js : Numbers) {count : Int} (safe : isSafe count = true)
    (next : isSafe (count + 1) = true) (time : List (List (Text × Int))) (now : Int) :
    writeEntry js (timesEntry count time) now =
      (appendTime js (.array (time.map timeJson)) (timeKey (count + 1)) now).map fun time =>
        .object [(countName, .number (intLiteral (count + 1))), (timeName, time)] := by
  have apart : countName ≠ timeName := by decide
  have nodup : ∀ a b : Json, ([(countName, a), (timeName, b)].map Prod.fst).Nodup := by
    simp [apart]
  have entry : ∀ a b : Json, Fields.ofList [(countName, a), (timeName, b)] = ⟨_, nodup a b⟩ :=
    fun a b => Fields.ofList_list ⟨_, nodup a b⟩
  unfold timeKey
  simp [writeEntry, timesEntry, entry, Fields.get, Fields.set, setField, List.lookup_cons, apart,
    apart.symm, beq_eq_decide, js.plusOne_int count safe next]

theorem isCanonical_timesEntry {count : Int} (safe : isSafe count = true)
    {time : List (List (Text × Int))}
    (canonical : ∀ fields ∈ time, isCanonical (timeJson fields) = true) :
    isCanonical (timesEntry count time) = true := by
  have names : countName ≠ timeName ∧ isIndex countName = false ∧ isIndex timeName = false := by
    decide
  have list : isCanonical (.array (time.map timeJson)) = true := by
    rw [isCanonical, itemsCanonical_iff, List.forall_mem_map]
    exact canonical
  rw [timesEntry, isCanonical_object]
  simp [names, isCanonical_int safe, list]

section Step

variable (js : Numbers) {others : Text → Option Json} {count : Int}
  {time : List (List (Text × Int))}

/-- The object that is printed has a property `toString` if the file has one. -/
theorem inText_jsondata {fields : List (Text × Json)}
    (elsewhere : ∀ key, key ≠ writeKey → (Fields.ofList fields).get key = others key) (entry : Json) :
    inText (js.asPrinted (.object ((Fields.ofList fields).set writeKey entry).list)) = true ↔
      others "toString".toList = none := by
  have apart : "toString".toList ≠ writeKey := by decide
  have names := get_asPrinted js ((Fields.ofList fields).set writeKey entry) "toString".toList
  rw [Fields.get_set, if_neg apart, elsewhere _ apart] at names
  rw [← Option.map_eq_none_iff (f := js.asPrinted), ← names, Fields.get_eq_none_iff,
    Fields.list_ofList (nodup_asPrinted js _), Numbers.asPrinted, inText, Bool.not_eq_true',
    List.contains_eq_mem, decide_eq_false_iff_not]

/-- What is printed for a file that holds other values and a new entry. -/
theorem holdsTimes_printed {fields : List (Text × Json)}
    (elsewhere : ∀ key, key ≠ writeKey → (Fields.ofList fields).get key = others key)
    (canonical : ∀ key v, others key = some v → isCanonical v = true)
    (safe : isSafe count = true)
    (times : ∀ fields ∈ time, isCanonical (timeJson fields) = true) :
    HoldsTimes (js.jsonText fourSpaces
      (.object ((Fields.ofList fields).set writeKey (timesEntry count time)).list)) others count time where
  parsed := by
    refine ⟨_, Json.parse_stringify _ rfl _, ?_, fun key other => ?_⟩
    · rw [get_asPrinted, Fields.get_set, if_pos rfl, Option.map_some,
        asPrinted_of_canonical js _ (isCanonical_timesEntry safe times)]
    · rw [get_asPrinted, Fields.get_set, if_neg other, elsewhere key other]
      cases there : others key with
      | none => rfl
      | some v => rw [Option.map_some, asPrinted_of_canonical js v (canonical key v there)]
  count := safe
  times := times
  others := canonical

/-- One request: the new element is added, or the handler throws. -/
theorem write_holdsTimes {file : Text} (holds : HoldsTimes file others count time) {now : Int}
    (safe : isSafe now = true) (next : isSafe (count + 1) = true) :
    (Extensible others time → ∃ file', write js file now = some file' ∧
      HoldsTimes file' others (count + 1) (time ++ [[(timeKey (count + 1), now)]])) ∧
    (¬ Extensible others time → write js file now = none) := by
  obtain ⟨fields, parsed, here, elsewhere⟩ := holds.parsed
  have written : write js file now =
      (appendTime js (.array (time.map timeJson)) (timeKey (count + 1)) now).bind fun longer =>
        let jsondata := Json.object ((Fields.ofList fields).set writeKey
          (.object [(countName, .number (intLiteral (count + 1))), (timeName, longer)])).list
        if inText (js.asPrinted jsondata) then some (js.jsonText fourSpaces jsondata) else none := by
    simp only [write, parsed, here, Option.bind_some,
      writeEntry_timesEntry js holds.count next time now, Option.bind_map, Function.comp_def]
  have name := isIndex_timeKey (count + 1)
  constructor
  · intro extensible
    have loggable : Loggable (time ++ [[(timeKey (count + 1), now)]]) := by
      refine List.forall_mem_append.mpr ⟨extensible.loggable, List.forall_mem_singleton.mpr ?_⟩
      simpa using (timeKey_ne_toString (count + 1)).symm
    have times : ∀ fields ∈ time ++ [[(timeKey (count + 1), now)]],
        isCanonical (timeJson fields) = true :=
      List.forall_mem_append.mpr
        ⟨holds.times, List.forall_mem_singleton.mpr (isCanonical_element name safe)⟩
    rw [written, appendTime_push js holds.times name safe extensible.nonempty
      extensible.unbracketed loggable, Option.bind_some]
    refine ⟨_, if_pos ((inText_jsondata js elsewhere _).mpr extensible.noToString), ?_⟩
    exact holdsTimes_printed js elsewhere holds.others next times
  · intro stuck
    rw [written]
    by_cases logged : others "toString".toList = none
    · have fails : ¬ (time ≠ [] ∧ Unbracketed time ∧ Loggable time) := fun works =>
        stuck ⟨works.1, works.2.1, works.2.2, logged⟩
      rw [appendTime_eq_none js holds.times name safe fails, Option.bind_none]
    · cases appendTime js (.array (time.map timeJson)) (timeKey (count + 1)) now with
      | none => rfl
      | some longer => exact if_neg (mt (inText_jsondata js elsewhere _).mp logged)

end Step

/-- What requests at these times add to a list with this count. -/
def added (count : Int) : List Int → List (List (Text × Int))
  | [] => []
  | now :: nows => [(timeKey (count + 1), now)] :: added (count + 1) nows

theorem Extensible.snoc {others : Text → Option Json} {time : List (List (Text × Int))}
    (extensible : Extensible others time) (count now : Int) :
    Extensible others (time ++ [[(timeKey count, now)]]) where
  nonempty := by simp
  unbracketed := by
    refine List.forall_mem_append.mpr ⟨extensible.unbracketed, List.forall_mem_singleton.mpr ?_⟩
    refine List.forall_mem_singleton.mpr fun bracket => ?_
    cases List.mem_append.mp bracket with
    | inl letters => exact absurd letters (by decide)
    | inr digits => exact bracket_not_mem_printInt count digits
  loggable := by
    refine List.forall_mem_append.mpr ⟨extensible.loggable, List.forall_mem_singleton.mpr ?_⟩
    simpa using (timeKey_ne_toString count).symm
  noToString := extensible.noToString

/-- From a list that is not empty and has no bracket in a name, every request adds its time
    with the next number and leaves the rest of the file alone, unless something in it is
    called `toString`. Otherwise no request is ever answered, and the file stays as it is. -/
theorem writes_holdsTimes (js : Numbers) (file : Text) (others : Text → Option Json) (count : Int)
    (time : List (List (Text × Int))) (holds : HoldsTimes file others count time)
    (nows : List Int) (clock : ∀ now ∈ nows, isSafe now = true)
    (counted : isSafe (count + nows.length) = true) :
    (Extensible others time →
      HoldsTimes (writes js file nows).1 others (count + nows.length) (time ++ added count nows) ∧
      (writes js file nows).2 = nows.map fun _ => true) ∧
    (¬ Extensible others time →
      (writes js file nows).1 = file ∧ (writes js file nows).2 = nows.map fun _ => false) := by
  induction nows generalizing file count time with
  | nil => simpa [writes, added] using fun _ => holds
  | cons now nows ih =>
      obtain ⟨safe, later⟩ := List.forall_mem_cons.mp clock
      have total : count + 1 + (nows.length : Int) = count + ((now :: nows).length : Nat) := by
        rw [List.length_cons]
        omega
      have next : isSafe (count + 1) = true := by
        have start := holds.count
        simp only [isSafe, Bool.and_eq_true, decide_eq_true_eq] at start counted ⊢
        omega
      obtain ⟨adds, throws⟩ := write_holdsTimes js holds safe next
      constructor
      · intro extensible
        obtain ⟨file', written, holds'⟩ := adds extensible
        obtain ⟨rest, answered⟩ := (ih file' _ _ holds' later (total ▸ counted)).1
          (extensible.snoc _ _)
        simp only [writes, written, added, List.map_cons, answered, and_true]
        rw [total, List.append_assoc, List.singleton_append] at rest
        exact rest
      · intro stuck
        have shorter : isSafe (count + nows.length) = true := by
          have start := holds.count
          simp only [isSafe, Bool.and_eq_true, decide_eq_true_eq, List.length_cons] at start counted ⊢
          omega
        obtain ⟨same, unanswered⟩ := (ih file count time holds later shorter).2 stuck
        simp only [writes, throws stuck, same, unanswered, List.map_cons, and_self]

/-- Only integers are counted. -/
def integersOnly : Numbers where
  print l := .number l
  plusOne v := (v.bind intOf).map fun z => (.number (intLiteral (z + 1)), printInt (z + 1))
  print_int _ _ := rfl
  plusOne_int z _ _ := by simp

/-- A file with one response time under the key, and another entry. -/
def oneTime : Text :=
  (Json.object [("GET / 200".toList, timesEntry 0 []),
    (writeKey, timesEntry 1 [[("response_time_1".toList, 35150)]])]).stringify fourSpaces []

def otherEntry (key : Text) : Option Json :=
  if key = "GET / 200".toList then some (timesEntry 0 []) else none

theorem holdsTimes_oneTime :
    HoldsTimes oneTime otherEntry 1 [[("response_time_1".toList, 35150)]] where
  parsed := by
    have two : ∀ (a b : Text) (v w : Json) (key : Text), (Fields.ofList [(a, v), (b, w)]).get key =
        if key = b then some w else if key = a then some v else none := by
      intro a b v w key
      change ((Fields.empty.set a v).set b w).get key = _
      rw [Fields.get_set, Fields.get_set, Fields.get_empty]
    refine ⟨_, Json.parse_stringify _ rfl _, ?_, fun key other => ?_⟩
    · rw [two, if_pos rfl]
    · rw [two, if_neg other, otherEntry]
  count := by decide
  times := by decide +kernel
  others := by
    intro key v found
    rw [otherEntry, Option.ite_none_right_eq_some, Option.some.injEq] at found
    rw [← found.2]
    decide +kernel

theorem writes_oneTime :
    HoldsTimes oneTime otherEntry 1 [[("response_time_1".toList, 35150)]] ∧
    HoldsTimes (writes integersOnly oneTime [40, 50]).1 otherEntry 3
      ([[("response_time_1".toList, 35150)]] ++ added 1 [40, 50]) := by
  have extensible : Extensible otherEntry [[("response_time_1".toList, 35150)]] :=
    ⟨by simp, by simp [Unbracketed, NoBracket], by simp [Loggable], by decide +kernel⟩
  exact ⟨holdsTimes_oneTime,
    ((writes_holdsTimes integersOnly oneTime otherEntry 1 _ holdsTimes_oneTime [40, 50]
      (by decide) (by decide)).1 extensible).1⟩

end OslabProfiler.Server
