import ProtoSchema.Proofs.DefinitionReading

/-! # Reading files

A file ends with the only end of text among its tokens. Its options may stand among its imports or
among its definitions, so a derivation does not tell where the parser changes from one loop to the
other; the statements below the file are the same either way.
-/

namespace ProtoSchema

open Computability

namespace Derivation

/-- A statement among the imports. -/
def Header (d : Derivation) : Prop :=
  d.From (.rule .importDecl) ∨ d.From (.rule .optionDecl)

/-- A statement among the definitions of a file whose messages pass `P`. -/
def TopLevel (P : Derivation → Prop) (d : Derivation) : Prop :=
  P d ∨ d.From (.rule .enumDef) ∨ d.From (.rule .serviceDef) ∨ d.From (.rule .optionDecl)

/-- The statements of a file whose messages pass `P`. -/
def FileParts (P : Derivation → Prop) (ds : List Derivation) : Prop :=
  ∃ (version package : Option Derivation) (headers definitions : List Derivation),
    ds = version.toList ++ (package.toList ++ (headers ++ definitions)) ∧
      (∀ d ∈ version, d.From (.rule .syntaxDecl)) ∧ (∀ d ∈ package, d.From (.rule .packageDecl)) ∧
        (∀ d ∈ headers, d.Header) ∧ ∀ d ∈ definitions, d.TopLevel P

theorem fits_headers {ds : List Derivation} :
    Fits (rule .importDecl + rule .optionDecl)∗ ds ↔ ∀ d ∈ ds, d.Header := by
  have loop {es} : Fits (rule .importDecl + rule .optionDecl) es ↔ ∃ d, d.Header ∧ es = [d] := by
    simp only [fits_add, fits_rule, Header, or_and_right, exists_or]
  rw [fits_kstar_singles fun es h => (loop.mp h).imp fun _ => And.right]
  simp only [loop, List.cons_eq_cons, and_true, exists_eq_right']

theorem fits_definitions {ds : List Derivation} :
    Fits (rule .messageDef + rule .enumDef + rule .serviceDef + rule .optionDecl)∗ ds ↔
      ∀ d ∈ ds, d.TopLevel (·.From (.rule .messageDef)) := by
  have loop {es} :
      Fits (rule .messageDef + rule .enumDef + rule .serviceDef + rule .optionDecl) es ↔
      ∃ d, d.TopLevel (·.From (.rule .messageDef)) ∧ es = [d] := by
    simp only [fits_add, fits_rule, TopLevel, or_and_right, exists_or, or_assoc]
  rw [fits_kstar_singles fun es h => (loop.mp h).imp fun _ => And.right]
  simp only [loop, List.cons_eq_cons, and_true, exists_eq_right']

theorem from_protoFile {d : Derivation} : d.From (.rule .protoFile) ↔
    ∃ ds last, d = .node (.rule .protoFile) (ds ++ [.token last]) ∧
      FileParts (·.From (.rule .messageDef)) ds ∧ last.kind = .eof := by
  have part {r : Rule} {ds} : Fits (1 + rule r) ds ↔
      ∃ o : Option Derivation, (∀ d ∈ o, d.From (.rule r)) ∧ ds = o.toList.map id :=
    fits_optional fun _ => fits_rule
  rw [from_iff]
  simp only [production, form, fits_mul, part, fits_headers, fits_definitions, fits_kind, FileParts,
    List.map_id]
  constructor
  · rintro ⟨_, rfl, _, ⟨_, ⟨_, ⟨_, ⟨version, hv, rfl⟩, _, ⟨package, hp, rfl⟩, rfl⟩,
      headers, hh, rfl⟩, definitions, hd, rfl⟩, _, ⟨last, hlast, rfl⟩, rfl⟩
    exact ⟨_, last, rfl, ⟨version, package, headers, definitions, by simp, hv, hp, hh, hd⟩, hlast⟩
  · rintro ⟨_, last, rfl, ⟨version, package, headers, definitions, rfl, hv, hp, hh, hd⟩, hlast⟩
    exact ⟨_, rfl, _, ⟨_, ⟨_, ⟨_, ⟨version, hv, rfl⟩, _, ⟨package, hp, rfl⟩, rfl⟩,
      headers, hh, rfl⟩, definitions, hd, rfl⟩, _, ⟨last, hlast, rfl⟩, by simp⟩

/-- The first token is one of the words `ws`. -/
def StartsWithWord (ws : List String) (d : Derivation) : Prop :=
  d.StartsWith fun t => ∃ w ∈ ws, t.isWord w

theorem StartsWith.word {w : String} {d : Derivation} (h : d.StartsWith (·.isWord w))
    {ws : List String} (mem : w ∈ ws) : d.StartsWithWord ws :=
  h.imp fun _ ht => ⟨w, mem, ht⟩

theorem StartsWithWord.other {ws : List String} {d : Derivation} (h : d.StartsWithWord ws)
    {v : String} (other : v ∉ ws) : d.StartsWith (·.isWord v = false) := by
  refine h.imp ?_
  rintro t ⟨w, mem, ht⟩
  exact isWord_other ht fun same => other (same ▸ mem)

theorem StartsWithWord.kind {ws : List String} {d : Derivation} (h : d.StartsWithWord ws) :
    d.StartsWith (·.kind = .ident) := by
  refine h.imp ?_
  rintro t ⟨w, -, ht⟩
  simp_all [Token.isWord]

theorem Header.startsWith {d : Derivation} (h : d.Header) :
    d.StartsWithWord ["import", "option"] := by
  obtain h | h := h
  · exact h.importDecl_startsWith.word (by simp)
  · exact h.optionDecl_startsWith.word (by simp)

theorem TopLevel.startsWith_definition {P : Derivation → Prop}
    (message : ∀ d, P d → d.From (.rule .messageDef)) {d : Derivation} (h : d.TopLevel P)
    (definition : ¬d.From (.rule .optionDecl)) :
    d.StartsWithWord ["message", "enum", "service"] := by
  obtain h | h | h | h := h
  · exact (from_messageDef.mp (message d h)).startsWith.word (by simp)
  · exact (from_enumDef.mp h).startsWith.word (by simp)
  · exact (from_serviceDef.mp h).startsWith.word (by simp)
  · exact absurd h definition

theorem TopLevel.startsWith {P : Derivation → Prop}
    (message : ∀ d, P d → d.From (.rule .messageDef))
    {d : Derivation} (h : d.TopLevel P) :
    d.StartsWithWord ["message", "enum", "service", "option"] := by
  by_cases option : d.From (.rule .optionDecl)
  · exact option.optionDecl_startsWith.word (by simp)
  · refine (h.startsWith_definition message option).imp ?_
    rintro t ⟨w, mem, ht⟩
    exact ⟨w, by simp only [List.mem_cons] at mem ⊢; tauto, ht⟩

theorem Header.wordFirst {d : Derivation} (h : d.Header) : d.WordFirst := by
  refine ⟨?_, h.startsWith.kind⟩
  obtain h | h := h
  all_goals exact ⟨_, h.rooted⟩

theorem TopLevel.wordFirst {P : Derivation → Prop} (message : ∀ d, P d → d.From (.rule .messageDef))
    {d : Derivation} (h : d.TopLevel P) : d.WordFirst := by
  refine ⟨?_, (h.startsWith message).kind⟩
  obtain h | h | h | h := h
  · exact ⟨_, (message d h).rooted⟩
  all_goals exact ⟨_, h.rooted⟩

theorem From.syntaxDecl_startsWith {d : Derivation} (h : d.From (.rule .syntaxDecl)) :
    d.StartsWith (·.isWord "syntax") := by
  obtain ⟨first, _, _, _, rfl, hfirst, -⟩ := from_syntaxDecl.mp h
  exact ⟨first, _, rfl, hfirst⟩

theorem From.packageDecl_startsWith {d : Derivation} (h : d.From (.rule .packageDecl)) :
    d.StartsWith (·.isWord "package") := by
  obtain ⟨first, path, last, rfl, hfirst, -⟩ := from_packageDecl.mp h
  exact ⟨first, _, rfl, hfirst⟩

theorem FileParts.kind_ne_eof {ds : List Derivation}
    (h : FileParts (·.From (.rule .messageDef)) ds) :
    ∀ t ∈ yieldList ds, t.kind ≠ .eof := by
  obtain ⟨version, package, headers, definitions, rfl, hv, hp, hh, hd⟩ := h
  rw [yieldList_eq_flatMap]
  intro t ht
  obtain ⟨d, hmem, ht⟩ := List.mem_flatMap.mp ht
  simp only [List.mem_append, Option.mem_toList] at hmem
  obtain hmem | hmem | hmem | hmem := hmem
  · exact (hv d hmem).kind_ne_eof (by decide) t ht
  · exact (hp d hmem).kind_ne_eof (by decide) t ht
  · obtain h | h := hh d hmem
    · exact h.kind_ne_eof (by decide) t ht
    · exact h.kind_ne_eof (by decide) t ht
  · obtain h | h | h | h := hd d hmem
    all_goals exact h.kind_ne_eof (by decide) t ht

theorem fileParts_messageUpTo {limit : Nat} {ds : List Derivation} :
    FileParts (MessageUpTo limit) ds ↔
      FileParts (·.From (.rule .messageDef)) ds ∧ nestingList ds ≤ limit := by
  rw [nestingList_le]
  constructor
  · rintro ⟨version, package, headers, definitions, rfl, hv, hp, hh, hd⟩
    refine ⟨⟨version, package, headers, definitions, rfl, hv, hp, hh, fun d hmem => ?_⟩, ?_⟩
    · exact (hd d hmem).imp_left And.left
    · intro d hmem
      simp only [List.mem_append, Option.mem_toList] at hmem
      obtain hmem | hmem | hmem | hmem := hmem
      · simp [(hv d hmem).nesting_eq_zero]
      · simp [(hp d hmem).nesting_eq_zero]
      · obtain h | h := hh d hmem
        all_goals simp [h.nesting_eq_zero]
      · obtain h | h | h | h := hd d hmem
        · exact h.2
        all_goals simp [h.nesting_eq_zero]
  · rintro ⟨⟨version, package, headers, definitions, rfl, hv, hp, hh, hd⟩, shallow⟩
    refine ⟨version, package, headers, definitions, rfl, hv, hp, hh, fun d hmem => ?_⟩
    exact (hd d hmem).imp_left fun h => ⟨h, shallow d (by simp [hmem])⟩

/-- Options before the first definition can be counted among the imports. -/
theorem split_headers {P : Derivation → Prop} {headers definitions : List Derivation}
    (hh : ∀ d ∈ headers, d.Header) (hd : ∀ d ∈ definitions, d.TopLevel P) :
    ∃ headers' definitions', headers ++ definitions = headers' ++ definitions' ∧
      (∀ d ∈ headers', d.Header) ∧ (∀ d ∈ definitions', d.TopLevel P) ∧
        ∀ d ∈ definitions'.head?, ¬d.From (.rule .optionDecl) := by
  induction definitions generalizing headers with
  | nil => exact ⟨headers, [], rfl, hh, by simp, by simp⟩
  | cons d definitions ih =>
      by_cases option : d.From (.rule .optionDecl)
      · obtain ⟨hd, hds⟩ := List.forall_mem_cons.mp hd
        have hh' : ∀ e ∈ headers ++ [d], e.Header := by
          intro e he
          obtain he | rfl := by simpa using he
          · exact hh e he
          · exact .inr option
        obtain ⟨headers', definitions', same, rest⟩ := ih hh' hds
        exact ⟨headers', definitions', by rw [← same]; simp, rest⟩
      · exact ⟨headers, d :: definitions, rfl, hh, hd, by simpa using option⟩

end Derivation

namespace Parser

open ProtoSchema.Derivation

variable {s : Scope} {P : Derivation → Prop}

/-- What holds of the first token of every derivation and of the token after them holds of the next
token. -/
theorem next_of_startsWith {p : Token → Prop} {ds : List Derivation} {rest : List Token}
    (starts : ∀ d ∈ ds.head?, d.StartsWith p) (after : p (s.next rest)) :
    p (s.next (yieldList ds ++ rest)) := by
  cases ds with
  | nil => exact after
  | cons d ds =>
      obtain ⟨t, ts, hy, ht⟩ := starts d rfl
      simpa [hy] using ht

theorem map_singleton_eq {ns : List Node} {ds : List Derivation}
    (rooted : ∀ d ∈ ds, ∃ x, d.Rooted x) :
    ns.map ([·]) = ds.map (nodes s) ↔ ns = nodesList s ds := by
  constructor
  · intro same
    rw [nodesList_eq_flatMap, List.flatMap_def, ← same, ← List.flatMap_def, List.flatMap_singleton']
  · rintro rfl
    induction ds with
    | nil => rfl
    | cons d ds ih =>
        obtain ⟨⟨x, root⟩, roots⟩ := List.forall_mem_cons.mp rooted
        obtain ⟨n, hn⟩ := root.nodes_eq s
        simp [hn, ih roots]

namespace Reads

theorem manyNodes (more : Token → Bool) {item : Parser Node} (h : Reads s item (Single s P))
    (starts : ∀ d, P d → d.StartsWith (more ·)) (rooted : ∀ d, P d → ∃ x, d.Rooted x) :
    Reads s (Parser.many more item) fun ns ds rest =>
      (∀ d ∈ ds, P d) ∧ ns = nodesList s ds ∧ more (s.next rest) = false := by
  refine (manySingles (f := ([·])) h starts).congr fun ns ds rest => and_congr_right fun hds => ?_
  rw [map_singleton_eq fun d hd => rooted d (hds d hd)]

theorem optional {w : String} {statement : Parser Node} (h : Reads s statement (Single s P))
    (starts : ∀ d, P d → d.StartsWith (·.isWord w)) (rooted : ∀ d, P d → ∃ x, d.Rooted x) :
    Reads s (Grammar.optional w statement) fun ns ds rest => ∃ o : Option Derivation,
        (∀ d ∈ o, P d) ∧ (o = none → (s.next rest).isWord w = false) ∧ ds = o.toList ∧
          ns = nodesList s ds := by
  refine (peek.bind fun _ => ite (fun _ => h.bind fun n => pure [n]) fun _ => pure []).congr ?_
  intro ns ds rest
  simp [Single]
  constructor
  · rintro (⟨-, n, ⟨d, rfl, hd, hn⟩, rfl⟩ | ⟨hw, rfl, rfl⟩)
    · exact ⟨some d, by simpa using hd, by simp, rfl, by simpa using hn⟩
    · exact ⟨none, by simp, by simpa using hw, rfl, rfl⟩
  · rintro ⟨_ | d, hd, hw, rfl, rfl⟩
    · exact .inr ⟨by simpa using hw, rfl, rfl⟩
    · obtain ⟨t, ts, hy, ht⟩ := starts d (hd d rfl)
      obtain ⟨x, root⟩ := rooted d (hd d rfl)
      obtain ⟨n, hn⟩ := root.nodes_eq s
      exact .inl ⟨by simpa [hy] using ht, n, ⟨d, rfl, hd d rfl, hn.symm⟩, by simp [hn]⟩

theorem header : Reads s Grammar.header (Single s Header) := by
  refine (peek.bind fun _ => ite (fun _ => importDecl) fun _ => optionDecl).congr ?_
  intro n ds rest
  simp [Single, Derived, Header]
  constructor
  · rintro (⟨-, d, rfl, hd, hn⟩ | ⟨-, d, rfl, hd, hn⟩)
    · exact ⟨d, rfl, .inl hd, hn⟩
    · exact ⟨d, rfl, .inr hd, hn⟩
  · rintro ⟨d, rfl, hd | hd, hn⟩
    · obtain ⟨t, ts, hy, ht⟩ := hd.importDecl_startsWith
      exact .inl ⟨by simpa [hy] using ht, d, rfl, hd, hn⟩
    · obtain ⟨t, ts, hy, ht⟩ := hd.optionDecl_startsWith
      exact .inr ⟨by simpa [hy] using isWord_other ht (by decide), d, rfl, hd, hn⟩

theorem topLevel (limit : Nat) :
    Reads s (Grammar.topLevel limit) (Single s (TopLevel (MessageUpTo limit))) := by
  refine (peek.bind fun _ => ite (fun _ => messageDef limit) fun _ => ite (fun _ => enumDef)
    fun _ => ite (fun _ => serviceDef) fun _ => ite (fun _ => optionDecl)
      fun _ => mismatch).congr ?_
  intro n ds rest
  simp [Single, Derived, TopLevel]
  constructor
  · rintro (⟨-, d, rfl, hd, hn⟩ | ⟨-, ⟨-, d, rfl, hd, hn⟩ | ⟨-, ⟨-, d, rfl, hd, hn⟩ |
      ⟨-, -, d, rfl, hd, hn⟩⟩⟩)
    · exact ⟨d, rfl, .inl hd, hn⟩
    · exact ⟨d, rfl, .inr (.inl hd), hn⟩
    · exact ⟨d, rfl, .inr (.inr (.inl hd)), hn⟩
    · exact ⟨d, rfl, .inr (.inr (.inr hd)), hn⟩
  · rintro ⟨d, rfl, hd | hd | hd | hd, hn⟩
    · obtain ⟨t, ts, hy, ht⟩ := (from_messageDef.mp hd.1).startsWith
      exact .inl ⟨by simpa [hy] using ht, d, rfl, hd, hn⟩
    · obtain ⟨t, ts, hy, ht⟩ := (from_enumDef.mp hd).startsWith
      simp only [yieldList_cons, yieldList_nil, List.append_nil, hy]
      exact .inr ⟨isWord_other ht (by decide), .inl ⟨ht, d, rfl, hd, hn⟩⟩
    · obtain ⟨t, ts, hy, ht⟩ := (from_serviceDef.mp hd).startsWith
      simp only [yieldList_cons, yieldList_nil, List.append_nil, hy]
      exact .inr ⟨isWord_other ht (by decide), .inr ⟨isWord_other ht (by decide),
        .inl ⟨ht, d, rfl, hd, hn⟩⟩⟩
    · obtain ⟨t, ts, hy, ht⟩ := hd.optionDecl_startsWith
      simp only [yieldList_cons, yieldList_nil, List.append_nil, hy]
      exact .inr ⟨isWord_other ht (by decide), .inr ⟨isWord_other ht (by decide),
        .inr ⟨isWord_other ht (by decide), ht, d, rfl, hd, hn⟩⟩⟩

theorem statements (limit : Nat) : Reads s (Grammar.statements limit) fun ns ds rest =>
    FileParts (MessageUpTo limit) ds ∧ (s.next rest).kind = .eof ∧ ns = nodesList s ds := by
  have message : ∀ d, MessageUpTo limit d → d.From (.rule .messageDef) := fun d => And.left
  have headers := manyNodes (fun t => t.isWord "import" || t.isWord "option")
    (header (s := s)) (fun d hd => hd.startsWith.imp fun t ht => by simpa using ht)
    fun d hd => hd.wordFirst.1
  have definitions := manyNodes (·.kind != .eof) (topLevel (s := s) limit)
    (fun d hd => (hd.startsWith message).kind.imp fun t ht => by simp [ht])
    fun d hd => (hd.wordFirst message).1
  refine ((optional syntaxDecl (fun d hd => hd.syntaxDecl_startsWith)
      fun d hd => ⟨_, hd.rooted⟩).bind
    fun version => (optional packageDecl (fun d hd => hd.packageDecl_startsWith)
      fun d hd => ⟨_, hd.rooted⟩).bind fun package =>
        headers.bind fun headers => definitions.bind fun definitions => pure _).congr ?_
  intro ns ds rest
  simp [FileParts]
  constructor
  · rintro ⟨version, package, headers, definitions, rfl, ⟨hv, -⟩, ⟨hp, -⟩, ⟨hh, -⟩, ⟨hd, stop⟩, rfl⟩
    exact ⟨⟨version, package, headers, definitions, rfl, hv, hp, hh, hd⟩, stop, by simp⟩
  · rintro ⟨⟨version, package, headers, definitions, rfl, hv, hp, hh, hd⟩, stop, rfl⟩
    obtain ⟨headers, definitions, same, hh, hd, first⟩ := split_headers hh hd
    rw [same]
    -- none of these tokens starts a statement that an earlier step has passed over
    have last (v : String) : (s.next rest).isWord v = false := by simp [Token.isWord, stop]
    have third (v : String) (hv : v ∉ ["message", "enum", "service"]) :
        (s.next (yieldList definitions ++ rest)).isWord v = false := by
      refine next_of_startsWith (p := (·.isWord v = false)) (fun d hmem => ?_) (last v)
      have h := (hd d (List.mem_of_mem_head? hmem)).startsWith_definition message (first d hmem)
      exact h.other hv
    have second (v : String) (hv : v ∉ ["message", "enum", "service", "import", "option"]) :
        (s.next (yieldList headers ++ (yieldList definitions ++ rest))).isWord v = false :=
      next_of_startsWith (p := (·.isWord v = false)) (fun d hmem =>
        (hh d (List.mem_of_mem_head? hmem)).startsWith.other (by simp_all)) (third v (by simp_all))
    have first : (s.next (yieldList package.toList ++ (yieldList headers ++
        (yieldList definitions ++ rest)))).isWord "syntax" = false :=
      next_of_startsWith (p := (·.isWord "syntax" = false)) (fun d hmem =>
        ((hp d (by simpa using hmem)).packageDecl_startsWith.word
          (List.mem_singleton_self _)).other (by simp)) (second _ (by simp))
    exact ⟨version, package, headers, definitions, rfl, ⟨hv, fun _ => first⟩,
      ⟨hp, fun _ => second _ (by simp)⟩, ⟨hh, third _ (by simp), third _ (by simp)⟩, ⟨hd, stop⟩,
      by simp⟩

end Reads

end Parser

end ProtoSchema
