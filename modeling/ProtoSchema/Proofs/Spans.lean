import ProtoSchema.Proofs.Subderivation

/-! # Spans of nodes

The span of a node runs from the first to the last of the tokens that the node is derived from.
Tokens follow one another, so spans are nested like the nodes, those of siblings follow one another,
and the children of the root divide the tokens of the file among them.
-/

namespace ProtoSchema

/-- Each token ends before the next one starts, and none is empty. -/
structure InOrder (ts : List Token) : Prop where
  disjoint : ts.Pairwise (·.stop ≤ ·.start)
  wide : ∀ t ∈ ts, t.start < t.stop

theorem InOrder.sublist {ts us : List Token} (h : InOrder us) (sub : ts.Sublist us) : InOrder ts :=
  ⟨h.disjoint.sublist sub, fun t ht => h.wide t (sub.mem ht)⟩

/-- The span of the node runs from the first to the last of the tokens. -/
def Node.Spans (n : Node) (ts : List Token) : Prop :=
  ∃ first last, ts.head? = some first ∧ ts.getLast? = some last ∧ n.start = first.start ∧
    n.stop = last.stop

namespace Node.Spans

variable {n : Node} {ts : List Token} {t : Token}

theorem bounds (h : n.Spans ts) (order : InOrder ts) (ht : t ∈ ts) :
    n.start ≤ t.start ∧ t.stop ≤ n.stop := by
  obtain ⟨first, last, head, final, start, stop⟩ := h
  obtain ⟨rest, rfl⟩ := List.head?_eq_some_iff.mp head
  obtain ⟨front, same⟩ := List.getLast?_eq_some_iff.mp final
  constructor
  · obtain rfl | ht := List.mem_cons.mp ht
    · exact start.le
    · have after := List.rel_of_pairwise_cons order.disjoint ht
      have wide := order.wide first List.mem_cons_self
      omega
  · rw [same] at ht order
    obtain ht | ht := List.mem_append.mp ht
    · have before := (List.pairwise_append.mp order.disjoint).2.2 t ht last (by simp)
      have wide := order.wide last (by simp)
      omega
    · obtain rfl := List.mem_singleton.mp ht
      exact stop.ge

theorem start_lt_stop (h : n.Spans ts) (order : InOrder ts) : n.start < n.stop := by
  have ⟨first, _, head, _⟩ := h
  have mem := List.mem_of_head? head
  have bounds := h.bounds order mem
  have wide := order.wide first mem
  omega

end Node.Spans

namespace Derivation

variable {s : Parser.Scope} {d : Derivation} {ds : List Derivation} {n c : Node} {t : Token}

theorem Valid.spans (h : d.Valid) (hn : nodes s d = [n]) : n.Spans d.yield := by
  have ne := h.yield_ne_nil
  cases d with
  | token t => simp at hn
  | node x parts =>
      rw [nodes_node, List.cons_eq_cons] at hn
      obtain ⟨rfl, -⟩ := hn
      rw [yield_node] at ne ⊢
      generalize yieldList parts = ts at ne ⊢
      obtain ⟨first, rest, rfl⟩ := List.exists_cons_of_ne_nil ne
      have final : (first :: rest).getLast? = some ((first :: rest).getLast ne) :=
        List.getLast?_eq_some_getLast ne
      refine ⟨first, _, rfl, final, rfl, ?_⟩
      rw [Parser.Scope.node, List.getLastD_eq_getLast?, final]
      rfl

theorem mem_nodesList (h : c ∈ nodesList s ds) : ∃ d ∈ ds, nodes s d = [c] := by
  rw [nodesList_eq_flatMap] at h
  obtain ⟨d, hd, hc⟩ := List.mem_flatMap.mp h
  cases d with
  | token t => simp at hc
  | node x parts =>
      rw [nodes_node, List.mem_singleton] at hc
      exact ⟨_, hd, by rw [nodes_node, hc]⟩

theorem yield_sublist (h : d ∈ ds) : d.yield.Sublist (yieldList ds) := by
  obtain ⟨left, right, rfl⟩ := List.append_of_mem h
  rw [yieldList_append, yieldList_cons]
  exact (List.sublist_append_left _ _).trans (List.sublist_append_right _ _)

theorem nodesList_ends (valid : ∀ d ∈ ds, d.Valid) (hc : c ∈ nodesList s ds) :
    (∃ first ∈ yieldList ds, c.start = first.start) ∧
    ∃ last ∈ yieldList ds, c.stop = last.stop := by
  obtain ⟨d, hd, hn⟩ := mem_nodesList hc
  obtain ⟨first, last, head, final, start, stop⟩ := (valid d hd).spans hn
  have sub := yield_sublist hd
  exact ⟨⟨first, sub.mem (List.mem_of_head? head), start⟩,
    last, sub.mem (List.mem_of_getLast? final), stop⟩

theorem stop_le_start {es : List Derivation} (hd : ∀ d ∈ ds, d.Valid) (he : ∀ e ∈ es, e.Valid)
    (order : InOrder (yieldList ds ++ yieldList es)) (hn : n ∈ nodesList s ds)
    (hc : c ∈ nodesList s es) : n.stop ≤ c.start := by
  obtain ⟨-, last, hlast, stop⟩ := nodesList_ends hd hn
  obtain ⟨⟨first, hfirst, start⟩, -⟩ := nodesList_ends he hc
  rw [stop, start]
  exact (List.pairwise_append.mp order.disjoint).2.2 last hlast first hfirst

theorem nodesList_disjoint (valid : ∀ d ∈ ds, d.Valid) (order : InOrder (yieldList ds)) :
    (nodesList s ds).Pairwise (·.stop ≤ ·.start) := by
  induction ds with
  | nil => exact .nil
  | cons d ds ih =>
      obtain ⟨hd, hds⟩ := List.forall_mem_cons.mp valid
      rw [yieldList_cons] at order
      have rest := ih hds (order.sublist (List.sublist_append_right _ _))
      cases d with
      | token t => exact rest
      | node x parts =>
          refine List.pairwise_cons.mpr ⟨fun c hc => ?_, rest⟩
          have single : ∀ e ∈ [Derivation.node x parts], e.Valid := by simpa using hd
          exact stop_le_start single hds (by simpa using order) (by simp) hc

theorem nodesList_inside (valid : ∀ d ∈ ds, d.Valid) (order : InOrder (yieldList ds))
    (span : n.Spans (yieldList ds)) (hc : c ∈ nodesList s ds) :
    n.start ≤ c.start ∧ c.stop ≤ n.stop := by
  obtain ⟨⟨first, hfirst, start⟩, last, hlast, stop⟩ := nodesList_ends valid hc
  have hstart := (span.bounds order hfirst).1
  have hstop := (span.bounds order hlast).2
  omega

/-- A token below nodes side by side lies inside one of them. -/
theorem nodesList_cover (valid : ∀ d ∈ ds, d.Valid) (rooted : ∀ d ∈ ds, ∃ x, d.Rooted x)
    (order : InOrder (yieldList ds)) (ht : t ∈ yieldList ds) :
    ∃ c, (nodesList s ds).filter (fun c => c.start ≤ t.start ∧ t.stop ≤ c.stop) = [c] := by
  rw [yieldList_eq_flatMap] at ht
  obtain ⟨d, hd, hdt⟩ := List.mem_flatMap.mp ht
  obtain ⟨x, root⟩ := rooted d hd
  obtain ⟨left, right, rfl⟩ := List.append_of_mem hd
  obtain ⟨c, hc⟩ := root.nodes_eq s
  rw [yieldList_append, yieldList_cons] at order
  have tail := order.sublist (List.sublist_append_right _ _)
  have inside := ((valid d hd).spans hc).bounds (tail.sublist (List.sublist_append_left _ _)) hdt
  have wide := tail.wide t (List.mem_append_left _ hdt)
  have before : ∀ b ∈ nodesList s left, ¬(b.start ≤ t.start ∧ t.stop ≤ b.stop) := by
    intro b hb
    obtain ⟨-, last, hlast, stop⟩ := nodesList_ends (fun e he => valid e (by simp [he])) hb
    have apart := (List.pairwise_append.mp order.disjoint).2.2 last hlast t
      (List.mem_append_left _ hdt)
    omega
  have after : ∀ b ∈ nodesList s right, ¬(b.start ≤ t.start ∧ t.stop ≤ b.stop) := by
    intro b hb
    obtain ⟨⟨first, hfirst, start⟩, -⟩ := nodesList_ends (fun e he => valid e (by simp [he])) hb
    have apart := (List.pairwise_append.mp tail.disjoint).2.2 t hdt first hfirst
    omega
  have outside {bs : List Node} (h : ∀ b ∈ bs, ¬(b.start ≤ t.start ∧ t.stop ≤ b.stop)) :
      bs.filter (fun c => c.start ≤ t.start ∧ t.stop ≤ c.stop) = [] :=
    List.filter_eq_nil_iff.mpr fun b hb => by simpa using h b hb
  refine ⟨c, ?_⟩
  rw [nodesList_append, nodesList_cons, hc, List.filter_append, List.filter_append, outside before,
    outside after]
  simp [inside]

theorem Occurs.sublist {e : Derivation} {front back : List Token} (h : e.Occurs front d back) :
    e.yield.Sublist d.yield := by
  rw [h.yield_eq]
  exact (List.sublist_append_left _ _).trans (List.sublist_append_right _ _)

/-- A node below the root is made by a part of the file. -/
theorem From.part_of_within (h : d.From (.rule .protoFile)) (hc : c ∈ (d.tree s).children)
    (hn : n.Within c) : ∃ front e back x, e.Occurs front d back ∧ nodes s e = [n] ∧ e.From x ∧
      x.label = n.rule ∧ x ≠ .rule .protoFile := by
  obtain ⟨⟨parts, rfl⟩, valid⟩ := h
  obtain ⟨part, hpart, made⟩ := mem_nodesList hc
  obtain ⟨front, e, back, occurs, he⟩ :=
    occurs_of_within hn (by rw [made]; exact List.mem_singleton_self c)
  obtain ⟨x, root, label⟩ := rooted_of_nodes he
  obtain _ | ⟨form, valids⟩ := valid
  have inner : ¬part.Rooted (.rule .protoFile) := by
    rintro ⟨ps, rfl⟩
    exact Symbol.file_not_mem_uses _ (production_inner _ _ form _ hpart)
  have file : x ≠ .rule .protoFile := by
    rintro rfl
    exact occurs.symbol_ne (valids part hpart) inner root
  obtain ⟨left, right, rfl⟩ := List.append_of_mem hpart
  exact ⟨_, e, _, x, .inside left right occurs, he, ⟨root, occurs.valid (valids part hpart)⟩, label,
    file⟩

theorem text_of_nodes (h : nodes s d = [n]) : n.text = s.slice n.start n.stop := by
  cases d with
  | token t => simp at h
  | node x parts =>
      rw [nodes_node, List.cons_eq_cons] at h
      rw [← h.1]
      rfl

/-- The children of a node over tokens in order lie inside it and follow one another. -/
theorem Valid.children (h : d.Valid) (order : InOrder d.yield) (hn : nodes s d = [n]) :
    (∀ c ∈ n.children, n.start ≤ c.start ∧ c.stop ≤ n.stop) ∧
      n.children.Pairwise (·.stop ≤ ·.start) := by
  have span := h.spans hn
  cases h with
  | token t => simp at hn
  | @node x parts form valid =>
      rw [nodes_node, List.cons_eq_cons] at hn
      obtain ⟨rfl, -⟩ := hn
      rw [Parser.Scope.node_children]
      split
      · exact ⟨by simp, .nil⟩
      · exact ⟨fun c => nodesList_inside valid order span, nodesList_disjoint valid order⟩

end Derivation

open ProtoSchema.Derivation

namespace Node

variable {source : List Char} {tokens : List Token} {d : Derivation} {ds : List Derivation}

theorem inOrder_of_scan (scanned : Token.scan source = .ok tokens) {ts : List Token}
    (sub : ts.Sublist tokens) (inner : ∀ t ∈ ts, t.kind ≠ .eof) : InOrder ts :=
  ⟨(Token.scan_disjoint scanned).sublist sub,
    fun t ht => Token.scan_wide scanned (sub.mem ht) (inner t ht)⟩

/-- A node over tokens of a text covers a part of the text. -/
theorem Spans.bounded (scanned : Token.scan source = .ok tokens) {n : Node} {ts : List Token}
    (span : n.Spans ts) (sub : ts.Sublist tokens) : 0 ≤ n.start ∧ n.stop ≤ source.length := by
  obtain ⟨first, last, head, final, start, stop⟩ := span
  rw [start, stop]
  exact ⟨(Token.scan_inside scanned (sub.mem (List.mem_of_head? head))).1,
    (Token.scan_inside scanned (sub.mem (List.mem_of_getLast? final))).2⟩

theorem slice_whole {i j : Int} (hi : 0 ≤ i) (hij : i ≤ j) : (Parser.Scope.whole source).slice i j =
    String.ofList ((source.drop i.toNat).take (j - i).toNat) := by
  obtain ⟨m, rfl⟩ := Int.eq_ofNat_of_zero_le hi
  obtain ⟨n, rfl⟩ := Int.eq_ofNat_of_zero_le (hi.trans hij)
  rw [Parser.Scope.slice, Parser.Scope.place_natCast, Parser.Scope.place_natCast]
  congr 2
  omega

/-- The statements of a file stand in order before the end of the text. -/
theorem statements_inOrder (derives : Derives tokens d) (scanned : Token.scan source = .ok tokens) :
    ∃ ds, (∀ s, (d.tree s).children = nodesList s ds) ∧ (∀ e ∈ ds, ∃ x, e.From x) ∧
      InOrder (yieldList ds) ∧ ∀ t ∈ tokens, t.kind ≠ .eof → t ∈ yieldList ds := by
  obtain ⟨from_file, rfl⟩ := derives
  obtain ⟨ds, last, rfl, parts, eof⟩ := from_protoFile.mp from_file
  refine ⟨ds, fun s => by simp [Derivation.tree, root], fun e he => ?_, ?_, fun t ht inner => ?_⟩
  · obtain h | h | h | h | h | h | h := parts.statements e he
    all_goals exact ⟨_, h⟩
  · refine inOrder_of_scan scanned ?_ parts.kind_ne_eof
    simp
  · obtain ht | rfl := by simpa using ht
    · exact ht
    · exact absurd eof inner

/-- The nodes of the tree of a text have the spans of the tokens that they are derived from. Spans
are nested, siblings follow one another, and every token but the end of the text lies in exactly
one child of the root. -/
theorem ofText_spans (limit : Nat) (source : List Char) :
    ∀ tree, Node.ofText limit source = .ok tree →
    (∀ n : Node, n.Within tree → 0 ≤ n.start ∧ n.start ≤ n.stop ∧ n.stop ≤ source.length ∧
      n.text = String.ofList ((source.drop n.start.toNat).take (n.stop - n.start).toNat)) ∧
    (∃ tokens d, Token.scan source = .ok tokens ∧ Derives tokens d ∧
      (∀ c ∈ tree.children, ∀ n : Node, n.Within c → n.start < n.stop ∧ ∃ front e back,
        e.Occurs front d back ∧ nodes (.whole source) e = [n] ∧ n.Spans e.yield ∧
          ∃ x, e.From x ∧ x.label = n.rule) ∧
      ∀ t ∈ tokens, t.kind ≠ .eof →
        ∃ c, tree.children.filter (fun c => c.start ≤ t.start ∧ t.stop ≤ c.stop) = [c]) ∧
    ∀ n : Node, n.Within tree → (∀ c ∈ n.children, n.start ≤ c.start ∧ c.stop ≤ n.stop) ∧
      n.children.Pairwise (·.stop ≤ ·.start) := by
  intro tree h
  obtain ⟨tokens, d, scanned, derives, -, rfl⟩ := ofText_eq_ok.mp h
  have part {c n : Node} (hc : c ∈ (d.tree (.whole source)).children) (hn : n.Within c) :
      ∃ front e back x, e.Occurs front d back ∧ nodes (.whole source) e = [n] ∧ e.From x ∧
        x.label = n.rule ∧ e.yield.Sublist tokens ∧ InOrder e.yield := by
    obtain ⟨front, e, back, x, occurs, made, from_x, label, file⟩ := derives.1.part_of_within hc hn
    have sub : e.yield.Sublist tokens := derives.2 ▸ occurs.sublist
    exact ⟨front, e, back, x, occurs, made, from_x, label, sub,
      inOrder_of_scan scanned sub (from_x.kind_ne_eof file)⟩
  have inner {c n : Node} (hc : c ∈ (d.tree (.whole source)).children) (hn : n.Within c) :
      0 ≤ n.start ∧ n.start < n.stop ∧ n.stop ≤ source.length ∧
        n.text = (Parser.Scope.whole source).slice n.start n.stop := by
    obtain ⟨front, e, back, x, -, made, from_x, -, sub, order⟩ := part hc hn
    have span := from_x.valid.spans made
    obtain ⟨low, high⟩ := span.bounded scanned sub
    exact ⟨low, span.start_lt_stop order, high, text_of_nodes made⟩
  obtain ⟨ds, children, from_ds, order, cover⟩ := statements_inOrder derives scanned
  have valid : ∀ e ∈ ds, e.Valid := fun e he => (from_ds e he).elim fun _ h => h.valid
  have rooted : ∀ e ∈ ds, ∃ x, e.Rooted x := fun e he => (from_ds e he).imp fun _ h => h.rooted
  obtain ⟨ps, rfl⟩ := derives.1.rooted
  refine ⟨?_, ⟨tokens, _, scanned, derives, ?_, ?_⟩, ?_⟩
  · intro n hn
    cases hn with
    | root => simp [Derivation.tree, root, Parser.Scope.whole]
    | inside hc hn =>
        obtain ⟨low, wide, high, text⟩ := inner hc hn
        exact ⟨low, wide.le, high, text.trans (slice_whole low wide.le)⟩
  · intro c hc n hn
    obtain ⟨front, e, back, x, occurs, made, from_x, label, -, order⟩ := part hc hn
    have span := from_x.valid.spans made
    exact ⟨span.start_lt_stop order, front, e, back, occurs, made, span, x, from_x, label⟩
  · intro t ht inner
    rw [children]
    exact nodesList_cover valid rooted order (cover t ht inner)
  · intro n hn
    cases hn with
    | root =>
        refine ⟨fun c hc => ?_, children _ ▸ nodesList_disjoint valid order⟩
        obtain ⟨low, -, high, -⟩ := inner hc .root
        exact ⟨low, high⟩
    | inside hc hn =>
        obtain ⟨front, e, back, x, -, made, from_x, -, -, order⟩ := part hc hn
        exact from_x.valid.children order made

/-- A message with an enum inside it and an empty statement after that, and an option. -/
theorem ofText_spans_message :
    let limit := 1
    let source := "message A\x7benum B\x7b\x7d;\x7d option x = 1;".toList
    ∃ tree, Node.ofText limit source = .ok tree ∧
      tree.children.map (fun n => (n.start, n.stop, n.children.map fun c => (c.start, c.stop))) =
        [(0, 20, [(8, 9), (10, 18)]), (21, 34, [(28, 29), (32, 33)])] ∧
      (∀ n : Node, n.Within tree → 0 ≤ n.start ∧ n.start ≤ n.stop ∧ n.stop ≤ source.length) ∧
      (∃ tokens d, Token.scan source = .ok tokens ∧ Derives tokens d ∧
        (∀ c ∈ tree.children, ∀ n : Node, n.Within c → n.start < n.stop ∧ ∃ front e back,
          e.Occurs front d back ∧ nodes (.whole source) e = [n] ∧ n.Spans e.yield) ∧
        ∀ t ∈ tokens, t.kind ≠ .eof →
          ∃ c, tree.children.filter (fun c => c.start ≤ t.start ∧ t.stop ≤ c.stop) = [c]) ∧
      ∀ n : Node, n.Within tree → n.children.Pairwise (·.stop ≤ ·.start) := by
  intro limit source
  have spans : (Node.ofText limit source).map (fun tree => tree.children.map fun n =>
      (n.start, n.stop, n.children.map fun c => (c.start, c.stop))) =
        .ok [(0, 20, [(8, 9), (10, 18)]), (21, 34, [(28, 29), (32, 33)])] := by decide +kernel
  cases read : Node.ofText limit source with
  | error e => simp [read, Except.map] at spans
  | ok tree =>
      obtain ⟨inside, ⟨tokens, d, scanned, derives, parts, cover⟩, nested⟩ :=
        ofText_spans limit source tree read
      refine ⟨tree, rfl, by simpa [read, Except.map] using spans, fun n hn => ?_,
        ⟨tokens, d, scanned, derives, fun c hc n hn => ?_, cover⟩, fun n hn => (nested n hn).2⟩
      · obtain ⟨low, wide, high, -⟩ := inside n hn
        exact ⟨low, wide, high⟩
      · obtain ⟨wide, front, e, back, occurs, made, span, -⟩ := parts c hc n hn
        exact ⟨wide, front, e, back, occurs, made, span⟩

end Node

end ProtoSchema
