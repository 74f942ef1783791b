import ProtoSchema.Proofs.Reporting

/-! # The output file is all or nothing

A file that is written changes what is at one location. No path is led elsewhere by it, because the
location of a file is not on the way to any other. So a document is saved whole and alone, or
nothing is.
-/

namespace ProtoSchema

namespace FileSystem

variable {fs fs' : FileSystem} {location : Location} {bytes : List UInt8}

theorem entryAt?_put (fs : FileSystem) (below : location ≠ []) (entry : Entry) (other : Location) :
    (fs.put location entry).entryAt? other =
      if other = location then some entry else fs.entryAt? other := by
  by_cases same : other = location
  · subst same
    simp [entryAt?, put, below]
  · simp [entryAt?, put, same, List.lookup_cons, beq_eq_false_iff_ne.mpr same]

theorem ne_nil_of_entryAt? (place : fs.entryAt? location ≠ some .directory) : location ≠ [] := by
  rintro rfl
  exact place rfl

/-- A way goes through directories only, so a file does not lie on it. -/
theorem step_put (place : fs.entryAt? location ≠ some .directory) (here next : Location)
    (name : String) :
    (fs.put location (.file bytes)).step here name = .ok next ↔ fs.step here name = .ok next := by
  unfold step
  rw [entryAt?_put fs (ne_nil_of_entryAt? place)]
  by_cases same : here = location
  · subst same
    rw [if_pos rfl]
    cases entry : fs.entryAt? here with
    | none => simp
    | some e =>
        cases e with
        | file bytes => simp
        | directory => exact absurd entry place
  · rw [if_neg same]

theorem locate_put (place : fs.entryAt? location ≠ some .directory) (path : Path)
    (found : Location) :
    (fs.put location (.file bytes)).locate path = .ok found ↔ fs.locate path = .ok found := by
  have way (names : List String) (start : Location) :
      names.foldlM (fs.put location (.file bytes)).step start = .ok found ↔
        names.foldlM fs.step start = .ok found := by
    induction names generalizing start with
    | nil => rfl
    | cons name names ih =>
        simp only [List.foldlM_cons]
        cases there : fs.step start name with
        | ok next =>
            rw [(step_put place start next name).mpr there]
            exact ih next
        | error r =>
            cases here : (fs.put location (.file bytes)).step start name with
            | ok next =>
                rw [step_put place, there] at here
                cases here
            | error r => exact ⟨nofun, nofun⟩
  unfold locate
  split
  · exact way ..
  · exact ⟨nofun, nofun⟩

theorem read_eq_ok {path : Path} : fs.read path = .ok bytes ↔
    ∃ found, fs.locate path = .ok found ∧ fs.entryAt? found = some (.file bytes) := by
  unfold read
  cases fs.locate path with
  | error r => simp
  | ok found =>
      cases entry : fs.entryAt? found with
      | none => simp [entry]
      | some e => cases e <;> simp [entry]

theorem write_eq_ok {path : Path} : fs.write path bytes = .ok fs' ↔
    ∃ found, fs.locate path = .ok found ∧ fs.entryAt? found ≠ some .directory ∧
      fs' = fs.put found (.file bytes) := by
  unfold write
  cases fs.locate path with
  | error r => simp
  | ok found =>
      cases entry : fs.entryAt? found with
      | none => simp [entry, eq_comm]
      | some e => cases e <;> simp [entry, eq_comm]

theorem guarded_eq_ok {null : Prop} [Decidable null] {x : Except Refusal α} {a : α} :
    (if null then .error .nullCharacter else x.mapError .refused : Except AccessError α) = .ok a ↔
      ¬null ∧ x = .ok a := by
  split
  · next null => exact ⟨nofun, fun h => absurd null h.1⟩
  · next plain => exact mapError_eq_ok.trans ⟨fun h => ⟨plain, h⟩, And.right⟩

theorem readText_eq_ok {path : String} : fs.readText path = .ok bytes ↔
    ¬path.toList.contains '\x00' ∧ fs.read (.ofText path) = .ok bytes :=
  guarded_eq_ok

theorem writeText_eq_ok {path : String} : fs.writeText path bytes = .ok fs' ↔
    ¬path.toList.contains '\x00' ∧ fs.write (.ofText path) bytes = .ok fs' :=
  guarded_eq_ok

/-- The file system `fs'` has a file with the given bytes at a path, and everything else as `fs`
has it: what is at any other location, and what is read from any path to another location. -/
structure Replaces (fs : FileSystem) (path : String) (bytes : List UInt8) (fs' : FileSystem) :
    Prop where
  home : fs'.home = fs.home
  content : fs'.readText path = .ok bytes
  others : ∃ location, fs.locate (.ofText path) = .ok location ∧
    (∀ other, other ≠ location → fs'.entryAt? other = fs.entryAt? other) ∧
      ∀ path' found, fs.locate (.ofText path') ≠ .ok location →
        (fs'.readText path' = .ok found ↔ fs.readText path' = .ok found)

/-- A file that is written replaces what was at its path. -/
theorem replaces_of_writeText {path : String} (h : fs.writeText path bytes = .ok fs') :
    fs.Replaces path bytes fs' := by
  obtain ⟨plain, written⟩ := writeText_eq_ok.mp h
  obtain ⟨location, located, place, rfl⟩ := write_eq_ok.mp written
  have entries := entryAt?_put fs (ne_nil_of_entryAt? place) (.file bytes)
  refine ⟨rfl, ?_, location, located, ?_, ?_⟩
  · exact readText_eq_ok.mpr ⟨plain, read_eq_ok.mpr
      ⟨location, (locate_put place ..).mpr located, by rw [entries, if_pos rfl]⟩⟩
  · intro other ne
    rw [entries, if_neg ne]
  · intro path' found elsewhere
    simp only [readText_eq_ok, read_eq_ok, locate_put place, entries]
    refine and_congr_right fun _ => exists_congr fun there => and_congr_right fun reached => ?_
    rw [if_neg]
    rintro rfl
    exact elsewhere reached

end FileSystem

namespace Command.Task

open Text

variable {fs : FileSystem} {file out : String} {pretty : Bool}

theorem stdout_failure (notices : List Notice) (told : String → List Notice) (failure : Failure) :
    (failure.outcome notices told).stdout = "" := by
  cases failure <;> rfl

theorem ending_failure (notices : List Notice) (told : String → List Notice) (failure : Failure) :
    (failure.outcome notices told).ending = .exit 1 ∨
      ∃ m, (failure.outcome notices told).ending = .mishap m := by
  cases failure with
  | reported message => exact .inl rfl
  | mishap m => exact .inr ⟨m, rfl⟩

/-- Saving a document and showing it differ in nothing but what becomes of it. -/
theorem planParse_file (limits : Limits) (file out : String) (pretty : Bool)
    (contents : Except AccessError (List UInt8)) :
    (∃ p ws document notices, Schema.ofContents limits.nesting contents = .ok (p, ws) ∧
      p.render limits.calls (layout pretty) = .ok document ∧
        planParse limits file .standard pretty contents =
          .finish ⟨.exit 0, document ++ "\n", notices⟩ ∧
        planParse limits file (.file out) pretty contents =
          .save out (document ++ "\n") notices) ∨
    ∃ failure notices told, planParse limits file (.file out) pretty contents =
      .finish (Failure.outcome notices told failure) := by
  unfold planParse
  cases Schema.ofContents limits.nesting contents with
  | error e => exact .inr ⟨_, _, _, rfl⟩
  | ok read =>
      obtain ⟨p, ws⟩ := read
      cases rendered : p.render limits.calls (layout pretty) with
      | error e =>
          simp only [rendered]
          exact .inr ⟨_, _, _, rfl⟩
      | ok document =>
          simp only [rendered]
          exact .inl ⟨p, ws, document, _, rfl, rendered, rfl, rfl⟩

/-- A document is saved whole, alone and as it would be shown, or nothing is. Either way nothing is
shown. -/
theorem run_parse_file (limits : Limits) (fs : FileSystem) (file out : String) (pretty : Bool) :
    let saved := Task.run limits fs (.parse file (.file out) pretty)
    let shown := Task.run limits fs (.parse file .standard pretty)
    saved.1.stdout = "" ∧
      (saved.1.ending = .exit 0 ∧ shown.1.ending = .exit 0 ∧ shown.2 = fs ∧
          (∃ p ws document, Schema.ofContents limits.nesting (fs.readText file) = .ok (p, ws) ∧
            p.render limits.calls (layout pretty) = .ok document ∧
            shown.1.stdout = document ++ "\n") ∧
          fs.Replaces out (Utf8.encode shown.1.stdout) saved.2 ∨
        (saved.1.ending = .exit 1 ∨ ∃ m, saved.1.ending = .mishap m) ∧ saved.2 = fs) := by
  intro saved shown
  obtain ⟨p, ws, document, notices, read, rendered, standard, save⟩ |
      ⟨failure, notices, told, plan⟩ :=
    planParse_file limits file out pretty (fs.readText file)
  · have shown_eq : shown = (⟨.exit 0, document ++ "\n", notices⟩, fs) := by
      simp only [shown, run, input?, Task.plan, standard]
    cases written : fs.writeText out (Utf8.encode (document ++ "\n")) with
    | ok fs' =>
        have saved_eq : saved = (afterSave out notices (.ok ()), fs') := by
          simp only [saved, run, input?, Task.plan, save, written]
        rw [shown_eq, saved_eq]
        exact ⟨rfl, .inl ⟨rfl, rfl, rfl, ⟨p, ws, document, read, rendered, rfl⟩,
          FileSystem.replaces_of_writeText written⟩⟩
    | error e =>
        have saved_eq : saved = (afterSave out notices (.error e), fs) := by
          simp only [saved, run, input?, Task.plan, save, written]
        rw [saved_eq]
        exact ⟨stdout_failure .., .inr ⟨ending_failure .., rfl⟩⟩
  · have saved_eq : saved = (failure.outcome notices told, fs) := by
      simp only [saved, run, input?, Task.plan, plan]
    rw [saved_eq]
    exact ⟨stdout_failure .., .inr ⟨ending_failure .., rfl⟩⟩

/-- The document of a file may take the place of the file. Nothing is saved where a directory is or
below a file. -/
theorem run_parse_file_itself :
    let limits := Limits.usual
    let fs : FileSystem := ⟨[(["a"], .file []), (["d"], .directory)], []⟩
    let document := "\x7b\"syntax\": \"proto3\", \"package\": null, \"imports\": [], " ++
      "\"messages\": [], \"enums\": [], \"services\": []\x7d\n"
    fs.Replaces "a" (Utf8.encode document) (Task.run limits fs (.parse "a" (.file "a") false)).2 ∧
      (Task.run limits fs (.parse "a" (.file "d") false)).2 = fs ∧
      (Task.run limits fs (.parse "a" (.file "a/b") false)).2 = fs := by
  intro limits fs document
  obtain ⟨-, ⟨-, -, -, -, replaced⟩ | ⟨failed, -⟩⟩ := run_parse_file limits fs "a" "a" false
  · obtain ⟨-, ⟨done, -⟩ | ⟨-, same⟩⟩ := run_parse_file limits fs "a" "d" false
    · exact absurd done (by decide +kernel)
    · obtain ⟨-, ⟨done, -⟩ | ⟨-, same'⟩⟩ := run_parse_file limits fs "a" "a/b" false
      · exact absurd done (by decide +kernel)
      · have shown : (Task.run limits fs (.parse "a" .standard false)).1.stdout = document := by
          decide +kernel
        exact ⟨shown ▸ replaced, same, same'⟩
  · have done : (Task.run limits fs (.parse "a" (.file "a") false)).1.ending = .exit 0 := by
      decide +kernel
    rw [done] at failed
    obtain failed | ⟨m, failed⟩ := failed
    · cases failed
    · cases failed

end Command.Task

end ProtoSchema
