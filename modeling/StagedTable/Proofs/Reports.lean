import Mathlib.Data.List.DropRight
import StagedTable.Issues

/-!
# Reports that can be read back

A report is one text, and the messages are not escaped in it.  As long as no message contains a
newline, they can be told from the report all the same, whatever else is in them: the header ends
with the first line, and each later line is a marker and a message.

* `Issues.ofCalls`     the record that calls build up; in it is what has been entered since the last
                       clear (`Issues.errors_ofCalls`);
* `Issues.messages?`   the messages that a report is read as, if it is one;
* `Issues.report_determines_messages`  two reports are the same only if they are of the same
                       messages.
-/

namespace StagedTable.Issues

/-! ## records built up by calls -/

inductive Call where
  | record (e : Error)
  | extend (es : List Error)
  | clear

/-- the errors that a call brings in -/
def Call.enters : Call → List Error
  | .record e => [e]
  | .extend es => es
  | .clear => []

def Call.clears : Call → Bool
  | .clear => true
  | _ => false

def call (i : Issues) : Call → Issues
  | .record e => i.record e
  | .extend es => i.extend es
  | .clear => .empty

def ofCalls (calls : List Call) : Issues := calls.foldl call .empty

/-- what the calls after the last clear bring in, in their order -/
def entered (calls : List Call) : List Error :=
  (calls.rtakeWhile (!·.clears)).flatMap Call.enters

theorem errors_ofCalls (calls : List Call) : (ofCalls calls).errors = entered calls := by
  induction calls using List.reverseRecOn with
  | nil => rfl
  | append_singleton calls c ih =>
    have hcalls : ofCalls (calls ++ [c]) = (ofCalls calls).call c := List.foldl_concat _ _ _ _
    rw [hcalls, entered, List.rtakeWhile_concat]
    cases c with
    | record e =>
      rw [if_pos (by rfl), List.flatMap_append, ← entered, ← ih]
      rfl
    | extend es =>
      rw [if_pos (by rfl), List.flatMap_append, ← entered, ← ih, List.flatMap_singleton]
      rfl
    | clear => rfl

/-! ## reading a report -/

/-- the messages of a text that begins with the header and goes on in marked lines -/
def messages? (text : String) : Option (List String) :=
  (text.toList.dropPrefix? header.toList).bind fun body =>
    (body.splitOn '\n').dropLast.mapM fun line =>
      (line.dropPrefix? marker.toList).map String.ofList

/-- each line ends with the newline after it, so nothing comes after the last one -/
theorem splitOn_lines {messages : List String} (h : ∀ m ∈ messages, '\n' ∉ m.toList) :
    (String.join (messages.map fun m => marker ++ m ++ "\n")).toList.splitOn '\n' =
      messages.map (fun m => marker.toList ++ m.toList) ++ [[]] := by
  induction messages with
  | nil => rfl
  | cons m messages ih =>
    obtain ⟨hm, hrest⟩ := List.forall_mem_cons.1 h
    have hline : ∀ c ∈ marker.toList ++ m.toList, (c == '\n') = false := by
      intro c hc
      rw [beq_eq_false_iff_ne]
      rintro rfl
      rcases List.mem_append.1 hc with hc | hc
      · exact absurd hc (by decide)
      · exact hm hc
    have htext : (String.join ((m :: messages).map fun m => marker ++ m ++ "\n")).toList =
        marker.toList ++ m.toList ++ '\n' ::
          (String.join (messages.map fun m => marker ++ m ++ "\n")).toList := by
      rw [List.map_cons, String.join_cons]
      simp
    rw [htext, List.splitOn, List.splitOnP_append_cons_of_forall_mem hline _ (by decide),
      ← List.splitOn, ih hrest]
    rfl

theorem messages?_listing {messages : List String} (h : ∀ m ∈ messages, '\n' ∉ m.toList) :
    messages? (listing messages) = some messages := by
  rw [messages?, listing, String.toList_append, List.dropPrefix?_append_of_beq _ (by simp),
    Option.bind_some, splitOn_lines h, List.dropLast_concat, List.mapM_map]
  have hline : ((fun line : List Char => (line.dropPrefix? marker.toList).map String.ofList) ∘
      fun m : String => marker.toList ++ m.toList) = some := by
    funext m
    show ((marker.toList ++ m.toList).dropPrefix? marker.toList).map String.ofList = some m
    rw [List.dropPrefix?_append_of_beq _ (by simp), Option.map_some, String.ofList_toList]
  rw [hline]
  exact (List.mapM_pure (f := id)).trans (congrArg some (List.map_id messages))

/-- **A report determines its messages.**  Let two records be built up by any calls, and let both
have something recorded.  Extending the first one with the errors of the second appends the second
report to the first, without its header.  If moreover no message that is recorded contains a
newline, the reports are the same only if they are of the same messages in the same order, which can
be read off the report line by line. -/
theorem report_determines_messages {calls calls' : List Call} (h : entered calls ≠ [])
    (h' : entered calls' ≠ []) :
    let messages := (entered calls).map (·.message)
    let messages' := (entered calls').map (·.message)
    ∃ text tail, (ofCalls calls).check = .error ⟨.validationFailed, text⟩ ∧
      (ofCalls calls').check = .error ⟨.validationFailed, header ++ tail⟩ ∧
      ((ofCalls calls).extend (ofCalls calls').errors).check =
        .error ⟨.validationFailed, text ++ tail⟩ ∧
      ((∀ m ∈ messages, '\n' ∉ m.toList) → (∀ m ∈ messages', '\n' ∉ m.toList) →
        (text = header ++ tail ↔ messages = messages') ∧
        messages? text = some messages ∧ messages? (header ++ tail) = some messages') := by
  intro messages messages'
  have htext : ∀ es, header ++ lines es = listing (es.map (·.message)) :=
    fun es => congrArg Error.message (report_eq ⟨es⟩)
  have hcheck : ∀ cs, entered cs ≠ [] →
      (ofCalls cs).check = .error ⟨.validationFailed, header ++ lines (entered cs)⟩ := by
    intro cs hcs
    rw [← errors_ofCalls] at hcs ⊢
    exact check_of_ne_nil hcs
  refine ⟨_, lines (entered calls'), hcheck calls h, hcheck calls' h', ?_, fun hn hn' => ?_⟩
  · have hne : ((ofCalls calls).extend (ofCalls calls').errors).errors ≠ [] := by
      rw [errors_extend, errors_ofCalls]
      exact List.append_ne_nil_of_left_ne_nil h _
    rw [check_of_ne_nil hne, report, errors_extend, lines_append, errors_ofCalls, errors_ofCalls,
      String.append_assoc]
  · have hread := messages?_listing hn
    have hread' := messages?_listing hn'
    rw [htext, htext]
    refine ⟨⟨fun heq => ?_, fun heq => congrArg listing heq⟩, hread, hread'⟩
    rw [heq, hread'] at hread
    exact (Option.some.inj hread).symm

/-- after a clear: an empty message, one that is only a marker, and the wording of the header -/
def lookalikes : List Call :=
  [.record ⟨.commitFailed, "gone"⟩, .clear, .record ⟨.invalidArgument, ""⟩,
    .extend [⟨.invalidArgument, "  - "⟩,
      ⟨.commitFailed, "Validation failed due to the following errors:"⟩]]

theorem report_determines_messages_lookalikes :
    let gone : Error := ⟨.commitFailed, "gone"⟩
    ∃ text tail, (ofCalls lookalikes).check = .error ⟨.validationFailed, text⟩ ∧
      messages? text = some ["", "  - ", "Validation failed due to the following errors:"] ∧
      messages? (header ++ tail) = some ["gone"] ∧ text ≠ header ++ tail ∧
      ((ofCalls lookalikes).extend [gone]).check = .error ⟨.validationFailed, text ++ tail⟩ := by
  intro gone
  have hne : entered lookalikes ≠ [] := by decide
  have hne' : entered [.record gone] ≠ [] := by decide
  obtain ⟨text, tail, hcheck, -, hextend, hread⟩ := report_determines_messages hne hne'
  obtain ⟨hiff, hmessages, hmessages'⟩ := hread (by decide +kernel) (by decide +kernel)
  exact ⟨text, tail, hcheck, hmessages, hmessages', fun heq => absurd (hiff.1 heq) (by decide),
    hextend⟩

end StagedTable.Issues
