import BoundSql.Cli.Run
import BoundSql.Proofs.Filter.Bindings
import BoundSql.Proofs.Json.Integer
import BoundSql.Proofs.Json.Number

/-!
# The JSON output of the compiler

A fragment is put out as a JSON object with its text and its bindings. The object is read back as
the same text and as values that have these bindings: each binding that a value can have is written
as `Binding.value` tells (`Binding.writes_json`), and a compiled filter has no others. In particular
it has no blobs, which would be written as arrays, and no numbers that are not finite, which would
be written as null.
-/

namespace BoundSql

open Json

/-- The value of the kind of a binding. -/
def Binding.value : Binding → Value
  | null => .null
  | bool b => .bool b
  | integer n => .int n
  | real x => .float x
  | text s => .text s
  | blob content => .bytes content

namespace Binding

variable {b : Binding}

/-- A binding of a value is the binding of the value that it is read as. -/
theorem bind_value (h : b.IsBound) : b.value.bind = .ok b := by
  obtain ⟨v, hv⟩ := h
  rcases Value.bind_cases hv with rfl | ⟨_, rfl⟩ | ⟨_, -, rfl⟩ | ⟨x, hfinite, rfl⟩ | ⟨_, rfl⟩
  case inr.inr.inr.inl =>
    rw [value, Value.bind, Double.isFinite_iff_nonFinite?_eq_none.1 hfinite]
  all_goals rfl

theorem writes_integer (n : Int64) : Writes (Text.integer n.toInt).toList (.int n) := by
  have hwrites := IntegerLiteral.writes_chars _ (IntegerLiteral.isExact_ofInt n)
  rwa [IntegerLiteral.chars_ofInt, IntegerLiteral.number_ofInt, Int64.ofInt_toInt] at hwrites

theorem writes_real {x : Double} (hfinite : x.isFinite = true) :
    Writes (number x).toList (.float x) :=
  writes_word (isWordChar_of_mem_number hfinite) (scalarOfWord_number hfinite) rfl

/-- **A binding of a value is written as this value.** -/
theorem writes_json (h : b.IsBound) : Writes b.json.toList b.value := by
  cases b with
  | null => exact writes_word (List.all_eq_true.1 rfl) rfl rfl
  | bool b => cases b <;> exact writes_word (List.all_eq_true.1 rfl) rfl rfl
  | integer n => exact writes_integer n
  | real x => exact writes_real h.isFinite
  | text s => exact writes_quote s
  | blob content =>
    have hbind := bind_value h
    cases hbind

end Binding

namespace Fragment

variable {f : Fragment}

theorem writes_bindingLines {bs : List Binding} (h : ∀ b ∈ bs, Writes b.json.toList b.value) :
    Writes (bindingLines bs).toList (.array (bs.map Binding.value)) := by
  cases bs with
  | nil => exact fun r t ts _ ht => .punctuation rfl (.punctuation rfl ht)
  | cons b bs =>
    have harray := @writes_array Binding Binding.json Binding.value ",\n    " "\n    ".toList rfl
      rfl "\n    ".toList "\n  ".toList rfl rfl (b :: bs) (List.cons_ne_nil b bs) h
    simpa [bindingLines] using harray

theorem readable_values (depth : Nat) (bs : List Binding) :
    ReadableItems depth (bs.map Binding.value) := by
  rw [readableItems_iff, List.forall_mem_map]
  intro b _
  cases b <;> trivial

section Entries

variable {r s : List Char} {ts : List Token}

theorem cuts_text_entry (t : String) (h : Cuts r s ts) :
    Cuts r ("\x7b\n  \"text\": ".toList ++ ((quote t).toList ++ s))
      (.openObject :: .text "text" :: .colon :: .text t :: ts) := by
  have hkey : "\x7b\n  \"text\": ".toList =
      '\x7b' :: '\n' :: ' ' :: ' ' :: ((quote "text").toList ++ [':', ' ']) := by decide +kernel
  simp only [hkey, List.cons_append, List.append_assoc, List.nil_append]
  exact .punctuation rfl (.blank rfl (.blank rfl (.blank rfl (.text (.punctuation rfl
    (.blank rfl (.text h)))))))

theorem cuts_values_key (h : Cuts r s ts) :
    Cuts r (",\n  \"values\": ".toList ++ s) (.comma :: .text "values" :: .colon :: ts) := by
  have hkey : ",\n  \"values\": ".toList =
      ',' :: '\n' :: ' ' :: ' ' :: ((quote "values").toList ++ [':', ' ']) := by decide +kernel
  simp only [hkey, List.cons_append, List.append_assoc, List.nil_append]
  exact .punctuation rfl (.blank rfl (.blank rfl (.blank rfl (.text (.punctuation rfl
    (.blank rfl h))))))

end Entries

/-- **A fragment is read back from its JSON text**, with each of its bindings as the value that it
is written as. -/
theorem read_json (h : ∀ b ∈ f.bindings, Writes b.json.toList b.value) :
    read (f.json ++ "\n") = .ok (.object [("text", .text f.text),
      ("values", .array (f.bindings.map Binding.value))]) := by
  have hkeys : ["text", "values"].Nodup := by decide
  have hreadable : Readable 0 (.object [("text", .text f.text),
      ("values", .array (f.bindings.map Binding.value))]) :=
    ⟨by decide, hkeys, trivial, ⟨by decide, readable_values 2 f.bindings⟩, trivial⟩
  refine @read_of_cuts (f.json ++ "\n") _ ?_ hreadable
  have hend : Cuts [] ("\n\x7d".toList ++ "\n".toList) [.closeObject] :=
    .blank rfl (.punctuation rfl (.blank rfl .rest))
  have hvalues := writes_bindingLines h _ _ _ (endsWord_cons rfl _) hend
  have hcuts := cuts_text_entry f.text (cuts_values_key hvalues)
  simp only [Fragment.json, String.toList_append, List.append_assoc]
  exact hcuts

end Fragment

namespace Cli

/-- What a command that compiles a filter to JSON does when it succeeds. -/
theorem exists_of_run_compile {i : Invocation} {coloured : Bool} {sources : Sources}
    {source : FilterSource} (hcommand : i.command = .compile source .json)
    (hok : (i.run coloured sources).exitCode = 0) :
    ∃ limits text v f, limitsOf i.config sources.limits = .ok limits ∧
      filterText source sources.filter = .ok text ∧ Json.read text = .ok v ∧
      compile limits v = .ok f ∧ (i.run coloured sources).output = f.json ++ "\n" := by
  unfold Invocation.run at hok ⊢
  cases hlimits : limitsOf i.config sources.limits with
  | error reason =>
    rw [hlimits] at hok
    cases hok
  | ok limits =>
    rw [hlimits] at hok
    simp only [hcommand] at hok ⊢
    cases htext : filterText source sources.filter with
    | error reason =>
      rw [htext] at hok
      cases hok
    | ok text =>
      rw [htext] at hok
      simp only [compileText] at hok ⊢
      cases hread : Json.read text with
      | error fault =>
        rw [hread] at hok
        cases hok
      | ok v =>
        rw [hread] at hok
        cases hcompile : compile limits v with
        | error e =>
          simp only [hcompile] at hok
          cases hok
        | ok f =>
          exact ⟨limits, text, v, f, rfl, rfl, hread, hcompile, by simp only [hcompile]; rfl⟩

/-- **The JSON output is read back as the fragment.** Whenever a filter is compiled to JSON, the
output is an object with the text of the fragment and a list of values, and these values have the
bindings of the fragment, in order. -/
theorem output_reads_back {i : Invocation} {coloured : Bool} {sources : Sources}
    {source : FilterSource} (hcommand : i.command = .compile source .json)
    (hok : (i.run coloured sources).exitCode = 0) :
    ∃ limits text v f vs, limitsOf i.config sources.limits = .ok limits ∧
      filterText source sources.filter = .ok text ∧ Json.read text = .ok v ∧
      compile limits v = .ok f ∧
      Json.read (i.run coloured sources).output =
        .ok (.object [("text", .text f.text), ("values", .array vs)]) ∧
      vs.map Value.bind = f.bindings.map .ok := by
  obtain ⟨limits, text, v, f, hlimits, htext, hread, hcompile, houtput⟩ :=
    exists_of_run_compile hcommand hok
  have hbound := isBound_of_mem_bindings hcompile
  refine ⟨limits, text, v, f, f.bindings.map Binding.value, hlimits, htext, hread, hcompile, ?_, ?_⟩
  · rw [houtput]
    exact Fragment.read_json fun b hb => Binding.writes_json (hbound b hb)
  · rw [List.map_map]
    exact List.map_congr_left fun b hb => Binding.bind_value (hbound b hb)

/-- A list of three items that differ by how they are written only. -/
theorem output_reads_back_of_list :
    let i : Invocation :=
      ⟨none, false, .compile (.argument "\x7b\"n\": \x7b\"in\": [1, 1.0, \"1\\n\"]\x7d\x7d") .json⟩
    let output := (i.run false ⟨none, .ok ""⟩).output
    output = "\x7b\n  \"text\": \"((\\\"n\\\" IN (?,?,?)))\",\n  \"values\": [\n" ++
        "    1,\n    1.0,\n    \"1\\n\"\n  ]\n\x7d\n" ∧
      ∃ vs, Json.read output =
          .ok (.object [("text", .text "((\"n\" IN (?,?,?)))"), ("values", .array vs)]) ∧
        vs.map Value.bind =
          [.ok (.integer 1), .ok (.real ⟨0x3ff0000000000000⟩), .ok (.text "1\n")] := by
  intro i output
  have hok : (i.run false ⟨none, .ok ""⟩).exitCode = 0 := by decide +kernel
  obtain ⟨limits, text, v, f, vs, hlimits, htext, hread, hcompile, houtput, hvalues⟩ :=
    output_reads_back rfl hok
  cases hlimits
  cases htext
  have hfragment : ((Json.read "\x7b\"n\": \x7b\"in\": [1, 1.0, \"1\\n\"]\x7d\x7d").toOption.bind
      fun v => (compile {} v).toOption) = some ⟨"((\"n\" IN (?,?,?)))",
        [.integer 1, .real ⟨0x3ff0000000000000⟩, .text "1\n"]⟩ := by decide +kernel
  rw [hread] at hfragment
  simp only [Except.toOption, Option.bind_some, hcompile, Option.some.injEq] at hfragment
  rw [hfragment] at houtput hvalues
  exact ⟨by decide +kernel, vs, houtput, hvalues⟩

end Cli

end BoundSql
