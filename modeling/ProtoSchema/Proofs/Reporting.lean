import ProtoSchema.Command.Run
import ProtoSchema.Proofs.NestedText

/-! # Two commands that report alike

Turning a file into a document and checking it fail for the same reason, and tell the user the
same. A schema is one more reason for them to differ: what there is no room to copy may still be
read.
-/

namespace ProtoSchema

open Command

/-! ## Files -/

namespace Text
theorem Utf8.decodeFrom_ascii {cs : List Char} (h : ∀ c ∈ cs, c.toNat < 128) (position : Nat) :
    decodeFrom position none (cs.map (·.toNat.toUInt8)) = .ok cs := by
  induction cs generalizing position with
  | nil => rfl
  | cons c cs ih =>
      obtain ⟨hc, hcs⟩ := List.forall_mem_cons.mp h
      have value : c.toNat.toUInt8.toNat = c.toNat := by
        rw [Nat.toUInt8, UInt8.toNat_ofNat']
        omega
      have small : c.toNat.toUInt8 < 0x80 := by
        rw [UInt8.lt_iff_toNat_lt, value]
        exact hc
      simp [decodeFrom, lead?, small, value, ih hcs, Except.map]

theorem foldLineEndings_plain {cs : List Char} (h : '\r' ∉ cs) : foldLineEndings cs = cs := by
  induction cs with
  | nil => rfl
  | cons c cs ih =>
      obtain ⟨hc, hcs⟩ := by simpa using h
      rw [foldLineEndings, ih hcs]
      · rintro _ rfl
        exact absurd rfl hc
      · rintro rfl
        exact absurd rfl hc
end Text

namespace FileSystem

theorem readText_nullCharacter (fs : FileSystem) (path : String) :
    fs.readText path = .error .nullCharacter ↔ path.toList.contains '\x00' := by
  rw [readText]
  split
  · next null => exact iff_of_true rfl null
  · next plain =>
      refine iff_of_false ?_ plain
      cases fs.read (Path.ofText path) <;> simp [Except.mapError]

end FileSystem

namespace Schema

variable {limit : Nat}

/-- A file that has no schema has a reason for the user, unless its path is none. -/
theorem ofContents_reported {contents : Except AccessError (List UInt8)} {e : DocumentError}
    (h : ofContents limit contents = .error e) (path : String) :
    contents = .error .nullCharacter ∧ e = .nullCharacter ∨
      ∃ message, e.report? path = some message := by
  obtain (_ | r) | bytes := contents
  · exact .inl ⟨rfl, by simpa [ofContents] using h.symm⟩
  · obtain rfl : _ = e := by simpa [ofContents] using h
    exact .inr ⟨_, rfl⟩
  · cases decoded : Text.Utf8.decode bytes with
    | error fault =>
        obtain rfl : _ = e := by simpa [ofContents, decoded] using h
        exact .inr ⟨_, rfl⟩
    | ok source =>
        simp only [ofContents, decoded] at h
        obtain ⟨p, ws, read⟩ | ⟨e', failed⟩ | ⟨e', failed⟩ | failed :=
          ofText_cases (limit - 1) (Text.foldLineEndings source)
        · simp [read, Except.mapError] at h
        all_goals
          obtain rfl : _ = e := by simpa [failed, Except.mapError] using h
          exact .inr ⟨_, rfl⟩

/-- The schema of a file is that of its text. -/
theorem ofContents_eq_ok {contents : Except AccessError (List UInt8)} {p : Schema}
    {ws : List Warning} : ofContents limit contents = .ok (p, ws) ↔
      ∃ bytes source, contents = .ok bytes ∧ Text.Utf8.decode bytes = .ok source ∧
        ofText (limit - 1) (Text.foldLineEndings source) = .ok (p, ws) := by
  obtain (_ | r) | bytes := contents
  · simp [ofContents]
  · simp [ofContents]
  · cases decoded : Text.Utf8.decode bytes with
    | error fault => simp [ofContents, decoded]
    | ok source => simp [ofContents, decoded, mapError_eq_ok]

theorem ofContents_render {contents : Except AccessError (List UInt8)} {p : Schema}
    {ws : List Warning} (h : ofContents limit contents = .ok (p, ws)) (room : Nat)
    (l : Json.Layout) :
    p.render room l = if p.toJson.calls ≤ room then .ok (String.ofList (p.toJson.write l 0))
      else .error .tooDeep := by
  obtain ⟨bytes, source, -, -, read⟩ := ofContents_eq_ok.mp h
  exact SchemaOf.render_eq (fun n mem => (ofText_inRange read n mem).short) room l

end Schema

namespace Command

/-! ## The two commands -/

/-- The lines for the user among the notices of an outcome. -/
def Outcome.lines (o : Outcome) : List String :=
  o.notices.filterMap fun
    | .line text => some text
    | .entry _ => none

/-- Both commands succeed, or both fail and tell the user the same. -/
def Agree (parsed validated : Outcome) : Prop :=
  (parsed.ending = .exit 0 ∧ validated.ending = .exit 0) ∨
    ∃ message, parsed.ending = .exit 1 ∧ validated.ending = .exit 1 ∧
      parsed.lines = ["Error parsing file: " ++ message] ∧
        validated.lines = ["Validation failed: " ++ message]

theorem Outcome.lines_quiet (ending : Ending) (log : List Log.Entry) (told : List Notice) :
    (Outcome.quiet ending (log.map .entry ++ told)).lines = (Outcome.quiet ending told).lines := by
  simp [Outcome.lines, Outcome.quiet, List.filterMap_map]

namespace Task

variable {limits : Limits} {fs : FileSystem} {file : String}

/-- What has been logged when a file has been read. -/
def noticed (file : String) (result : Except DocumentError (Schema × List Warning)) : List Notice :=
  (Schema.readingLog file result).map .entry

theorem run_parse_error (pretty : Bool) {e : DocumentError}
    (h : Schema.ofContents limits.nesting (fs.readText file) = .error e) :
    (Task.run limits fs (.parse file .standard pretty)).1 =
      (Failure.ofDocumentError file e).outcome (noticed file (.error e)) (parseNotices file) := by
  simp [Task.run, input?, plan, planParse, h, noticed]

theorem run_validate_error {e : DocumentError}
    (h : Schema.ofContents limits.nesting (fs.readText file) = .error e) :
    (Task.run limits fs (.validate file)).1 =
      (Failure.ofDocumentError file e).outcome (noticed file (.error e)) validateNotices := by
  simp [Task.run, input?, plan, validateContents, h, noticed]

theorem run_validate_ok {p : Schema} {ws : List Warning}
    (h : Schema.ofContents limits.nesting (fs.readText file) = .ok (p, ws)) :
    (Task.run limits fs (.validate file)).1.ending = .exit 0 := by
  simp [Task.run, input?, plan, validateContents, h]

theorem run_parse_ok (pretty : Bool) {p : Schema} {ws : List Warning}
    (h : Schema.ofContents limits.nesting (fs.readText file) = .ok (p, ws)) :
    (Task.run limits fs (.parse file .standard pretty)).1.ending =
      if p.toJson.calls ≤ limits.calls then .exit 0 else .mishap .tooDeep := by
  by_cases fits : p.toJson.calls ≤ limits.calls
  · simp [Task.run, input?, plan, planParse, h, Schema.ofContents_render h, fits]
  · simp [Task.run, input?, plan, planParse, h, Schema.ofContents_render h, fits,
      Failure.ofWriteError, WriteError.report?, Failure.outcome, Outcome.quiet]

theorem not_agree_mishap {parsed validated : Outcome} {m : Mishap} (h : parsed.ending = .mishap m) :
    ¬Agree parsed validated := by
  rintro (⟨done, -⟩ | ⟨message, failed, -⟩)
  · cases h.symm.trans done
  · cases h.symm.trans failed

theorem agree_ok (pretty : Bool) {p : Schema} {ws : List Warning}
    (h : Schema.ofContents limits.nesting (fs.readText file) = .ok (p, ws)) :
    Agree (Task.run limits fs (.parse file .standard pretty)).1
        (Task.run limits fs (.validate file)).1 ↔
      p.toJson.calls ≤ limits.calls := by
  have written := run_parse_ok pretty h
  by_cases fits : p.toJson.calls ≤ limits.calls
  · rw [if_pos fits] at written
    exact iff_of_true (.inl ⟨written, run_validate_ok h⟩) fits
  · rw [if_neg fits] at written
    exact iff_of_false (not_agree_mishap written) fits

theorem agree_error (pretty : Bool) {e : DocumentError}
    (h : Schema.ofContents limits.nesting (fs.readText file) = .error e) :
    Agree (Task.run limits fs (.parse file .standard pretty)).1
        (Task.run limits fs (.validate file)).1 ↔
      fs.readText file ≠ .error .nullCharacter := by
  have parsed := run_parse_error pretty h
  have validated := run_validate_error h
  obtain ⟨null, rfl⟩ | ⟨message, reported⟩ := Schema.ofContents_reported h file
  · exact iff_of_false (not_agree_mishap (congrArg Outcome.ending parsed))
      fun readable => readable null
  · have failure : Failure.ofDocumentError file e = .reported message := by
      simp [Failure.ofDocumentError, reported]
    rw [failure] at parsed validated
    refine iff_of_true (.inr ⟨message, ?_, ?_, ?_, ?_⟩) fun null => ?_
    · rw [parsed]
      rfl
    · rw [validated]
      rfl
    · rw [parsed]
      exact Outcome.lines_quiet ..
    · rw [validated]
      exact Outcome.lines_quiet ..
    · rw [null] at h
      cases h
      cases reported

/-- The two commands agree unless the path has a null character or there is no room to copy the
schema of the file. This is about paths that are sequences of characters and a standard output that
takes every character: a path with a lone surrogate and an output in another encoding than UTF-8 are
further reasons for one command, or both, to end without a report. -/
theorem agree_iff (limits : Limits) (fs : FileSystem) (file : String) (pretty : Bool) :
    Agree (Task.run limits fs (.parse file .standard pretty)).1
        (Task.run limits fs (.validate file)).1 ↔
      ¬file.toList.contains '\x00' ∧
        ∀ p ws, Schema.ofContents limits.nesting (fs.readText file) = .ok (p, ws) →
          p.toJson.calls ≤ limits.calls := by
  rw [← FileSystem.readText_nullCharacter fs]
  cases result : Schema.ofContents limits.nesting (fs.readText file) with
  | ok read =>
      have readable : fs.readText file ≠ .error .nullCharacter := by
        intro null
        rw [null] at result
        cases result
      rw [agree_ok pretty result]
      refine ⟨fun fits => ⟨readable, ?_⟩, fun h => h.2 _ _ rfl⟩
      rintro _ _ ⟨⟩
      exact fits
  | error e =>
      rw [agree_error pretty result]
      exact ⟨fun readable => ⟨readable, by simp⟩, And.left⟩

/-- The two commands agree about an empty file. -/
theorem agree_empty :
    let limits := Limits.usual
    let fs : FileSystem := ⟨[(["a.proto"], .file [])], []⟩
    ¬"a.proto".toList.contains '\x00' ∧
      Agree (Task.run limits fs (.parse "a.proto" .standard true)).1
        (Task.run limits fs (.validate "a.proto")).1 := by
  intro limits fs
  have read : Schema.ofContents limits.nesting (fs.readText "a.proto") = .ok (.empty, []) := by
    decide +kernel
  refine ⟨by decide, (agree_iff limits fs "a.proto" true).mpr ⟨by decide, fun p ws h => ?_⟩⟩
  obtain ⟨rfl, -⟩ : Schema.empty = p ∧ ws = [] := by simpa [read] using h
  decide

/-- A file of messages inside each other is read up to one limit and copied up to another. -/
theorem run_nested (limits : Limits) (pretty : Bool) {n : Nat}
    (bytes : fs.readText file = .ok ((nestedText n).map (·.toNat.toUInt8)))
    (deep : limits.calls < 3 * (n + 1) + 3) (shallow : n < limits.nesting - 1) :
    (Task.run limits fs (.parse file .standard pretty)).1.ending = .mishap .tooDeep ∧
      (Task.run limits fs (.validate file)).1.ending = .exit 0 := by
  have ascii : "message A\x7b\x7d".toList.all (·.toNat < 128) := by decide
  have small : ∀ c ∈ nestedText n, c.toNat < 128 := fun c hc =>
    of_decide_eq_true (List.all_eq_true.mp ascii c (nestedText_chars hc))
  have plain : '\r' ∉ nestedText n := not_mem_nestedText (by decide) n
  obtain ⟨ws, read⟩ := Schema.ofText_nestedText shallow
  have result : Schema.ofContents limits.nesting (fs.readText file) = .ok (.nested n, ws) :=
    Schema.ofContents_eq_ok.mpr ⟨_, _, bytes, Text.Utf8.decodeFrom_ascii small 0,
      by rw [Text.foldLineEndings_plain plain, read]⟩
  refine ⟨?_, run_validate_ok result⟩
  have calls := SchemaOf.depth_le_calls (Schema.nested n)
  rw [Schema.depth_nested] at calls
  rw [run_parse_ok pretty result, if_neg (by omega)]

/-- Six hundred messages inside each other are valid but not turned into a document, and neither
command reports a path with a null character. -/
theorem not_agree :
    let limits := Limits.usual
    let nested : FileSystem := ⟨[(["a.proto"], .file ((nestedText 599).map (·.toNat.toUInt8)))], []⟩
    ((Task.run limits nested (.parse "a.proto" .standard false)).1.ending = .mishap .tooDeep ∧
      (Task.run limits nested (.validate "a.proto")).1.ending = .exit 0) ∧
    ((Task.run limits nested (.parse "a\x00b" .standard false)).1.ending =
        .mishap .nullCharacter ∧
      (Task.run limits nested (.validate "a\x00b")).1.ending = .mishap .nullCharacter) ∧
    ¬∀ fs file pretty, Agree (Task.run limits fs (.parse file .standard pretty)).1
      (Task.run limits fs (.validate file)).1 := by
  intro limits nested
  have bytes : nested.readText "a.proto" = .ok ((nestedText 599).map (·.toNat.toUInt8)) := rfl
  have deep := run_nested limits false bytes (by decide) (by decide)
  exact ⟨deep, ⟨rfl, rfl⟩, fun agree => not_agree_mishap deep.1 (agree nested "a.proto" false)⟩

end Task

end Command

end ProtoSchema
