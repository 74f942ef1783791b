import ProtoSchema.Proofs.Reading

/-! # How far a parser gets

A parser that fails at a token has taken the tokens before it. Here is what a run says about other
lists that start with the same tokens. The tokens that were taken can always be completed to a
list that the parser takes whole, and no list is accepted that goes on with the token at which the
parser fails, while one is that goes on with any of those the failure names. Looking ahead does not
change this: a choice that depends on later tokens is one between continuations that need just these
tokens.

Parsers come in pairs, as values of `Bool → Parser α`. The two differ in how deeply messages may be
nested, and the second one of a pair allows more.
-/

namespace ProtoSchema

namespace Expectation

/-- The tokens are what the expectation names: a token of its kind, its word, or tokens that its
rule derives. -/
def Names : Expectation → List Token → Prop
  | .kind k, ts => ∃ t : Token, t.kind = k ∧ ts = [t]
  | .word w, ts => ∃ t : Token, t.isWord w ∧ ts = [t]
  | .rule r, ts => ∃ d : Derivation, d.From (.rule r) ∧ d.yield = ts

/-- The expectation names a first part of the tokens. -/
def Starts (x : Expectation) (ts : List Token) : Prop :=
  ∃ t more, x.Names (t :: more) ∧ t :: more <+: ts

variable {x : Expectation} {t : Token} {ts : List Token}

theorem names_kind {k : Token.Kind} (h : t.kind = k) : (kind k).Names [t] :=
  ⟨t, h, rfl⟩

theorem names_word {w : String} (h : t.isWord w) : (word w).Names [t] :=
  ⟨t, h, rfl⟩

theorem kind_of_names {k : Token.Kind} (h : (kind k).Names (t :: ts)) : t.kind = k := by
  obtain ⟨u, hu, same⟩ := h
  obtain ⟨rfl, -⟩ := List.cons_eq_cons.mp same
  exact hu

theorem isWord_of_names {w : String} (h : (word w).Names (t :: ts)) : t.isWord w := by
  obtain ⟨u, hu, same⟩ := h
  obtain ⟨rfl, -⟩ := List.cons_eq_cons.mp same
  exact hu

theorem Names.starts (h : x.Names (t :: ts)) (more : List Token) : x.Starts (t :: ts ++ more) :=
  ⟨t, ts, h, List.prefix_append ..⟩

theorem Starts.append (h : x.Starts ts) (more : List Token) : x.Starts (ts ++ more) := by
  obtain ⟨t, us, names, before⟩ := h
  exact ⟨t, us, names, before.trans (List.prefix_append ts more)⟩

theorem Starts.head (h : x.Starts (t :: ts)) : ∃ more, x.Names (t :: more) := by
  obtain ⟨u, more, names, before⟩ := h
  obtain ⟨rfl, -⟩ := List.cons_prefix_cons.mp before
  exact ⟨more, names⟩

end Expectation

namespace Parser

/-- The text does not end among the tokens. -/
def Inner (ts : List Token) : Prop :=
  ∀ t ∈ ts, t.kind ≠ .eof

/-- The text ends among the tokens. -/
def Ended (ts : List Token) : Prop :=
  ∃ t ∈ ts, t.kind = .eof

theorem Inner.append {ts us : List Token} (ht : Inner ts) (hu : Inner us) : Inner (ts ++ us) := by
  intro t h
  obtain h | h := List.mem_append.mp h
  · exact ht t h
  · exact hu t h

theorem Inner.cons {t : Token} {ts : List Token} (ht : t.kind ≠ .eof) (hts : Inner ts) :
    Inner (t :: ts) :=
  List.forall_mem_cons.mpr ⟨ht, hts⟩

theorem Inner.nil : Inner [] := by
  intro t h
  cases h

theorem Ended.rest {front rest : List Token} (h : Ended (front ++ rest)) (inner : Inner front) :
    Ended rest := by
  obtain ⟨t, mem, eof⟩ := h
  obtain mem | mem := List.mem_append.mp mem
  · exact absurd eof (inner t mem)
  · exact ⟨t, mem, eof⟩

theorem Ended.tail {t : Token} {ts : List Token} (h : Ended (t :: ts)) (inner : t.kind ≠ .eof) :
    Ended ts :=
  Ended.rest (show Ended ([t] ++ ts) from h) (.cons inner .nil)

theorem Ended.exists_cons {ts : List Token} (h : Ended ts) : ∃ t more, ts = t :: more := by
  obtain ⟨t, mem, -⟩ := h
  exact List.exists_cons_of_ne_nil (List.ne_nil_of_mem mem)

section

variable (s : Scope) (Q : Token → Prop) (p : Parser α)

/-- The parser takes just these tokens and makes `a` of them if a token that passes `Q` follows. -/
def Takes (front : List Token) (a : α) : Prop :=
  ∀ v rest, Q v → p s (front ++ v :: rest) = .ok (a, v :: rest)

/-- The parser accepts no list that starts with these tokens. -/
def Blocked (front : List Token) : Prop :=
  ∀ more r, p s (front ++ more) ≠ .ok r

/-- Some more tokens make these tokens a list that the parser takes whole. -/
def Completes (front : List Token) : Prop :=
  ∃ tail a, Inner tail ∧ Takes s Q p (front ++ tail) a

/-- What the expectation names can go on these tokens: some tokens that start with it, or with the
token after them, make these tokens a list that the parser takes whole. -/
def Offers (x : Expectation) (front : List Token) : Prop :=
  ∃ tail a, Inner tail ∧ (∀ v, Q v → x.Starts (tail ++ [v])) ∧ Takes s Q p (front ++ tail) a

/-- The parser takes a list of tokens that starts with `start`, or no token if there is none. -/
def Ready (start : Option Token) : Prop :=
  ∃ tail a, Inner tail ∧ tail.head? = start ∧ Takes s Q p tail a

end

/-- What a parser asks for after these tokens: something it can go on with, or one of `wants` if it
has not taken any token. -/
structure Asks (s : Scope) (wants : List Expectation) (P : Token → Prop) (p : Parser α)
    (front : List Token) (expected : List Expectation) : Prop where
  some : expected ≠ []
  first : front = [] → expected ⊆ wants
  later : front ≠ [] → ∀ x ∈ expected, Offers s P p x front

/-- How a pair of parsers does on tokens, where a token that passes `P` may follow what they take.
They take tokens and leave the next one, or stop at a token that cannot stand there, or the first
of them stops where messages are nested too deeply for it. No token is taken only if `idle`, and
before any token is taken they ask for some of `wants`. -/
inductive Predicts (s : Scope) (idle : Prop) (wants : List Expectation) (P : Token → Prop)
    (p : Bool → Parser α) (ts : List Token) : Prop where
  | ok (front more : List Token) (u : Token) (a : α) (same : ts = front ++ u :: more)
      (inner : Inner front) (takes : ∀ b, Takes s (fun v => v = u ∨ P v) (p b) front a)
      (idles : front = [] → idle)
  | mismatch (front more : List Token) (e : ParseError) (same : ts = front ++ e.found :: more)
      (inner : Inner front) (result : p false s ts = .error (.mismatch e))
      (blocked : ∀ b, Blocked s (p b) (front ++ [e.found]))
      (completes : front ≠ [] → ∀ b, Completes s P (p b) front)
      (asks : Asks s wants P (p true) front e.expected)
  | tooDeep (front more : List Token) (same : ts = front ++ more) (some : front ≠ [])
      (inner : Inner front) (result : p false s ts = .error .tooDeep)
      (blocked : Blocked s (p false) front) (completes : Completes s P (p true) front)

theorem bind_congr {s : Scope} {p q : Parser α} {ts us : List Token} (h : p s ts = q s us)
    (f : α → Parser β) : (p >>= f) s ts = (q >>= f) s us := by
  simp only [Bind.bind, h]

theorem bind_assoc {s : Scope} (p : Parser α) (f : α → Parser β) (g : β → Parser γ)
    (ts : List Token) : (p >>= f >>= g) s ts = (p >>= fun a => f a >>= g) s ts := by
  cases h : p s ts with
  | error failure => exact (bind_error (bind_error h f) g).trans (bind_error h _).symm
  | ok result => exact (bind_congr (bind_ok h f) g).trans (bind_ok h fun a => f a >>= g).symm

theorem expectAs_cons {s : Scope} {k : Token.Kind} {t : Token} (h : t.kind = k)
    (names : List Expectation) (context : String) (xs : List Token) :
    expectAs k names context s (t :: xs) = .ok (t, xs) := by
  change (if t.kind = k then advance else mismatch names context) s (t :: xs) = _
  rw [if_pos h]
  rfl

theorem expectAs_other {s : Scope} {k : Token.Kind} {t : Token} (h : t.kind ≠ k)
    (names : List Expectation) (context : String) (xs : List Token) :
    expectAs k names context s (t :: xs) = .error (.mismatch ⟨names, context, t⟩) := by
  change (if t.kind = k then advance else mismatch names context) s (t :: xs) = _
  rw [if_neg h]
  rfl

theorem leaf_cons {s : Scope} {k : Token.Kind} {t : Token} (h : t.kind = k) (r : Rule)
    (context : String) (xs : List Token) :
    leaf k r context s (t :: xs) = .ok (s.leaf r t, xs) :=
  bind_ok (expectAs_cons h _ _ xs) _

theorem keyword_cons {s : Scope} {w : String} {t : Token} (h : t.isWord w) (context : String)
    (xs : List Token) : keyword w context s (t :: xs) = .ok (t, xs) := by
  change (if t.isWord w then advance else mismatch [.word w] context) s (t :: xs) = _
  rw [if_pos h]
  rfl

/-! ## Sequences -/

section

variable {s : Scope} {P Q Q₁ : Token → Prop} {p : Parser α} {f : α → Parser β}
  {front back : List Token} {a : α} {b : β} {start : Option Token} {wants : List Expectation}
  {x : Expectation}

theorem Takes.mono (h : Takes s Q₁ p front a) (weaker : ∀ v, Q v → Q₁ v) : Takes s Q p front a :=
  fun v rest hv => h v rest (weaker v hv)

theorem Takes.bind (h : Takes s Q₁ p front a) (h' : Takes s Q (f a) back b)
    (join : ∀ v, Q v → ∀ w ∈ (back ++ [v]).head?, Q₁ w) :
    Takes s Q (p >>= f) (front ++ back) b := by
  intro v rest hv
  cases back with
  | nil =>
      rw [List.append_nil, bind_ok (h v rest (join v hv v rfl))]
      exact h' v rest hv
  | cons w back =>
      have first := h w (back ++ v :: rest) (join v hv w rfl)
      rw [List.append_assoc, List.cons_append, bind_ok first]
      exact h' v rest hv

theorem Blocked.bind_left (h : Blocked s p front) : Blocked s (p >>= f) front := by
  intro more r ok
  obtain ⟨a, mid, first, -⟩ := bind_eq_ok.mp ok
  exact h more _ first

theorem Blocked.bind_right {w : Token} (h : Takes s Q₁ p front a)
    (h' : Blocked s (f a) (w :: back)) (hw : Q₁ w) : Blocked s (p >>= f) (front ++ w :: back) := by
  intro more r ok
  rw [List.append_assoc, List.cons_append, bind_ok (h w _ hw)] at ok
  exact h' more r ok

/-- What may follow the first parser of a sequence: the token that the second one starts with, what
the second one asks for, and what follows the sequence if the second one may take nothing. -/
structure Follows (start : Option Token) (wants : List Expectation) (P Q : Token → Prop) :
    Prop where
  first : ∀ v ∈ start, Q v
  asked : ∀ x ∈ wants, ∀ t ts, x.Names (t :: ts) → Q t
  idle : start = none → ∀ v, P v → Q v

theorem Follows.unasked (h : Follows start wants P Q) : Follows start [] P Q :=
  ⟨h.first, nofun, h.idle⟩

theorem Follows.head {tail : List Token} (h : Follows tail.head? wants P Q) :
    ∀ v, P v → ∀ w ∈ (tail ++ [v]).head?, Q w := by
  intro v hv w hw
  cases tail with
  | nil =>
      obtain rfl := by simpa using hw
      exact h.idle rfl v hv
  | cons t tail =>
      obtain rfl := by simpa using hw
      exact h.first t rfl

theorem Completes.bind_left (h : Completes s Q₁ p front) (ready : ∀ a, Ready s P (f a) start)
    (follows : Follows start [] P Q₁) : Completes s P (p >>= f) front := by
  obtain ⟨tail, a, inner, takes⟩ := h
  obtain ⟨tail', b, inner', rfl, takes'⟩ := ready a
  refine ⟨tail ++ tail', b, inner.append inner', ?_⟩
  rw [← List.append_assoc]
  exact takes.bind takes' follows.head

theorem Completes.bind_right {w : Token} (h : Takes s (fun v => v = w ∨ Q₁ v) p front a)
    (h' : Completes s P (f a) (w :: back)) : Completes s P (p >>= f) (front ++ w :: back) := by
  obtain ⟨tail, b, inner, takes⟩ := h'
  refine ⟨tail, b, inner, ?_⟩
  rw [List.append_assoc]
  exact h.bind takes fun v _ u hu => .inl (by simpa using hu.symm)

theorem Ready.bind {start₁ start₂ : Option Token} (h : Ready s Q₁ p start₁)
    (h' : ∀ a, Ready s P (f a) start₂) (follows : Follows start₂ [] P Q₁) :
    Ready s P (p >>= f) (start₁.or start₂) := by
  obtain ⟨tail, a, inner, rfl, takes⟩ := h
  obtain ⟨tail', b, inner', rfl, takes'⟩ := h' a
  exact ⟨tail ++ tail', b, inner.append inner', List.head?_append, takes.bind takes' follows.head⟩

theorem Offers.bind_left (h : Offers s Q₁ p x front) (ready : ∀ a, Ready s P (f a) start)
    (follows : Follows start [] P Q₁) : Offers s P (p >>= f) x front := by
  obtain ⟨tail, a, inner, starts, takes⟩ := h
  obtain ⟨tail', b, inner', rfl, takes'⟩ := ready a
  refine ⟨tail ++ tail', b, inner.append inner', fun v hv => ?_, ?_⟩
  · -- the token after the first part is one of the second part, or the one after both
    obtain ⟨w, more, same⟩ : ∃ w more, tail' ++ [v] = w :: more :=
      List.exists_cons_of_ne_nil (by simp)
    rw [List.append_assoc, same, List.append_cons]
    exact (starts w (follows.head v hv w (by simp [same]))).append more
  · rw [← List.append_assoc]
    exact takes.bind takes' follows.head

theorem Offers.bind_right {w : Token} (h : Takes s (fun v => v = w ∨ Q₁ v) p front a)
    (h' : Offers s P (f a) x (w :: back)) : Offers s P (p >>= f) x (front ++ w :: back) := by
  obtain ⟨tail, b, inner, starts, takes⟩ := h'
  refine ⟨tail, b, inner, starts, ?_⟩
  rw [List.append_assoc]
  exact h.bind takes fun v _ u hu => .inl (by simpa using hu.symm)

theorem Offers.bind_next (h : Takes s Q₁ p front a) (h' : Offers s P (f a) x [])
    (follows : ∀ t ts, x.Names (t :: ts) → Q₁ t) : Offers s P (p >>= f) x front := by
  obtain ⟨tail, b, inner, starts, takes⟩ := h'
  refine ⟨tail, b, inner, starts, h.bind takes fun v hv w hw => ?_⟩
  obtain ⟨ts, same⟩ := List.head?_eq_some_iff.mp hw
  obtain ⟨more, names⟩ := (same ▸ starts v hv).head
  exact follows w more names

theorem Offers.after {q : Parser α} (h : Offers s P q x [])
    (agree : ∀ t ts, x.Names (t :: ts) → ∀ xs, p s (front ++ t :: xs) = q s (t :: xs)) :
    Offers s P p x front := by
  obtain ⟨tail, a, inner, starts, takes⟩ := h
  refine ⟨tail, a, inner, starts, fun v rest hv => ?_⟩
  have whole := takes v rest hv
  have starts := starts v hv
  rw [List.append_assoc]
  cases tail with
  | nil =>
      obtain ⟨more, names⟩ := starts.head
      exact (agree v more names rest).trans whole
  | cons w tail =>
      obtain ⟨more, names⟩ := starts.head
      exact (agree w more names (tail ++ v :: rest)).trans whole

/-! After some tokens a parser may go on as another one does with the token `w`. Then it takes what
that one takes, and stops where that one stops. -/

section

variable {q : Parser α} {w : Token}

theorem Takes.after_cons (h : Takes s Q q (w :: back) a)
    (agree : ∀ xs, p s (front ++ w :: xs) = q s (w :: xs)) :
      Takes s Q p (front ++ w :: back) a := by
  intro v rest hv
  rw [List.append_assoc, List.cons_append, agree]
  exact h v rest hv

theorem Blocked.after_cons (h : Blocked s q (w :: back))
    (agree : ∀ xs, p s (front ++ w :: xs) = q s (w :: xs)) : Blocked s p (front ++ w :: back) := by
  intro more r ok
  rw [List.append_assoc, List.cons_append, agree] at ok
  exact h more r ok

theorem Completes.after_cons (h : Completes s P q (w :: back))
    (agree : ∀ xs, p s (front ++ w :: xs) = q s (w :: xs)) :
    Completes s P p (front ++ w :: back) := by
  obtain ⟨tail, a, inner, takes⟩ := h
  refine ⟨tail, a, inner, ?_⟩
  rw [List.append_assoc]
  exact takes.after_cons agree

theorem Offers.after_cons (h : Offers s P q x (w :: back))
    (agree : ∀ xs, p s (front ++ w :: xs) = q s (w :: xs)) :
    Offers s P p x (front ++ w :: back) := by
  obtain ⟨tail, a, inner, starts, takes⟩ := h
  refine ⟨tail, a, inner, starts, ?_⟩
  rw [List.append_assoc]
  exact takes.after_cons agree

end

theorem Completes.dropLast {t : Token} (h : Completes s P p (front ++ [t]))
    (inner : t.kind ≠ .eof) :
    Completes s P p front := by
  obtain ⟨tail, a, inner', takes⟩ := h
  exact ⟨t :: tail, a, .cons inner inner', by rwa [List.append_cons]⟩

theorem Completes.offers {t : Token} (h : Completes s P p (front ++ [t])) (inner : t.kind ≠ .eof)
    (names : x.Names [t]) : Offers s P p x front := by
  obtain ⟨tail, a, inner', takes⟩ := h
  refine ⟨t :: tail, a, .cons inner inner', fun v _ => names.starts (tail ++ [v]), ?_⟩
  rwa [List.append_cons]

theorem Ready.offers {t : Token} (h : Ready s P p (Option.some t)) (names : x.Names [t]) :
    Offers s P p x [] := by
  obtain ⟨tail, a, inner, head, takes⟩ := h
  obtain ⟨tail, rfl⟩ := List.head?_eq_some_iff.mp head
  exact ⟨t :: tail, a, inner, fun v _ => names.starts (tail ++ [v]), takes⟩

end

theorem eq_cons_of_append {u x : Token} {front more xs : List Token}
    (h : u :: more = front ++ x :: xs)
    (ys : List Token) : ∃ zs, front ++ x :: ys = u :: zs := by
  cases front with
  | nil => exact ⟨ys, by simp [(List.cons_eq_cons.mp h).1]⟩
  | cons w front => exact ⟨front ++ x :: ys, by simp [(List.cons_eq_cons.mp h).1]⟩

namespace Predicts

variable {s : Scope} {idle : Prop} {wants wants' : List Expectation} {P Q : Token → Prop}
  {p q : Bool → Parser α} {ts : List Token}

/-- What a failure says: it is at a token that blocks both parsers, or it comes from nesting. -/
theorem failure_cases {failure : Failure} (h : Predicts s idle wants P p ts)
    (failed : p false s ts = .error failure) :
    (∃ e front more, failure = .mismatch e ∧ ts = front ++ e.found :: more ∧ Inner front ∧
      (∀ b, Blocked s (p b) (front ++ [e.found])) ∧
        (front ≠ [] → ∀ b, Completes s P (p b) front)) ∨
    ∃ front more, failure = .tooDeep ∧ ts = front ++ more ∧ Inner front ∧
      Blocked s (p false) front ∧ Completes s P (p true) front := by
  cases h with
  | ok front more u a same inner takes idles =>
      have ok := takes false u more (.inl rfl)
      rw [← same] at ok
      cases ok.symm.trans failed
  | mismatch front more e same inner result blocked completes asks =>
      cases result.symm.trans failed
      exact .inl ⟨e, front, more, rfl, same, inner, blocked, completes⟩
  | tooDeep front more same some inner result blocked completes =>
      cases result.symm.trans failed
      exact .inr ⟨front, more, rfl, same, inner, blocked, completes⟩

/-- What a mismatch asks for, at the place where it is. -/
theorem mismatch_asks {e : ParseError} (h : Predicts s idle wants P p ts)
    (failed : p false s ts = .error (.mismatch e)) : ∃ front more, ts = front ++ e.found :: more ∧
      Inner front ∧ Asks s wants P (p true) front e.expected := by
  cases h with
  | ok front more u a same inner takes idles =>
      have ok := takes false u more (.inl rfl)
      rw [← same] at ok
      cases ok.symm.trans failed
  | mismatch front more e same inner result blocked completes asks =>
      cases result.symm.trans failed
      exact ⟨front, more, same, inner, asks⟩
  | tooDeep front more same some inner result blocked completes =>
      cases result.symm.trans failed

/-- The second parsers of a sequence, after the tokens that the first ones took. -/
theorem bind_taken {f : Bool → α → Parser β} {start : Option Token} {front more : List Token}
    {u : Token} {a : α} (hf : Predicts s (start = none) wants' P (f · a) (u :: more))
    (takes : ∀ b, Takes s (fun v => v = u ∨ Q v) (p b) front a) (inner : Inner front)
    (idles : front = [] → idle) (ready : ∀ b a, Ready s P (f b a) start)
    (follows : Follows start [] P Q)
    (next : ∀ x ∈ wants', Offers s P (p true >>= f true) x front) (second : idle → wants' ⊆ wants) :
    Predicts s (idle ∧ start = none) wants P (fun b => p b >>= f b) (front ++ u :: more) := by
  have taken : p false s (front ++ u :: more) = .ok (a, u :: more) := takes false u more (.inl rfl)
  cases hf with
  | ok back more' v b same' inner' takes' idles' =>
      refine .ok (front ++ back) more' v b (by rw [same', List.append_assoc])
        (inner.append inner') (fun b => ?_) fun none => ?_
      · refine (takes b).bind (takes' b) fun w hw x hx => ?_
        cases back with
        | nil =>
            obtain rfl := by simpa using hx
            obtain ⟨rfl, -⟩ := List.cons_eq_cons.mp same'
            exact hw.imp_right (follows.idle (idles' rfl) w)
        | cons y back =>
            obtain rfl := by simpa using hx
            exact .inl (List.cons_eq_cons.mp same').1.symm
      · obtain ⟨rfl, rfl⟩ := List.append_eq_nil_iff.mp none
        exact ⟨idles rfl, idles' rfl⟩
  | mismatch back more' e same' inner' result' blocked' completes' asks' =>
      refine .mismatch (front ++ back) more' e (by rw [same', List.append_assoc])
        (inner.append inner') ((bind_ok taken _).trans result') (fun b => ?_) (fun _ b => ?_)
        ⟨asks'.some, fun none => ?_, fun _ x mem => ?_⟩
      · obtain ⟨zs, head⟩ := eq_cons_of_append same' []
        have blocked := blocked' b
        rw [List.append_assoc, head]
        rw [head] at blocked
        exact .bind_right (takes b) blocked (.inl rfl)
      · cases back with
        | nil =>
            rw [List.append_nil]
            exact .bind_left ⟨[], a, .nil, by simpa using (takes b).mono fun _ => .inr⟩ (ready b)
              follows
        | cons w back =>
            obtain rfl := (List.cons_eq_cons.mp same').1
            exact .bind_right (takes b) (completes' (by simp) b)
      · obtain ⟨rfl, rfl⟩ := List.append_eq_nil_iff.mp none
        exact List.Subset.trans (asks'.first rfl) (second (idles rfl))
      · cases back with
        | nil =>
            rw [List.append_nil]
            exact next x (asks'.first rfl mem)
        | cons w back =>
            obtain rfl := (List.cons_eq_cons.mp same').1
            exact .bind_right (takes true) (asks'.later (by simp) x mem)
  | tooDeep back more' same' some' inner' result' blocked' completes' =>
      obtain ⟨w, back, rfl⟩ := List.exists_cons_of_ne_nil some'
      obtain rfl := (List.cons_eq_cons.mp same').1
      exact .tooDeep (front ++ u :: back) more' (by rw [same', List.append_assoc]) (by simp)
        (inner.append inner') ((bind_ok taken _).trans result')
        (.bind_right (takes false) blocked' (.inl rfl)) (.bind_right (takes true) completes')

theorem bind {f : Bool → α → Parser β} {start : Option Token}
    {wants₁ wants₂ : List Expectation} (hp : Predicts s idle wants₁ Q p ts)
    (ended : Ended ts) (hf : ∀ a rest, Ended rest → p false s ts = .ok (a, rest) →
      Predicts s (start = none) wants₂ P (f · a) rest)
    (ready : ∀ b a, Ready s P (f b a) start) (follows : Follows start [] P Q)
    (next : ∀ x ∈ wants₂, ∀ front a, Takes s Q (p true) front a →
      Offers s P (p true >>= f true) x front)
    (first : wants₁ ⊆ wants) (second : idle → wants₂ ⊆ wants) :
    Predicts s (idle ∧ start = none) wants P (fun b => p b >>= f b) ts := by
  cases hp with
  | ok front more u a same inner takes idles =>
      subst same
      exact (hf a (u :: more) (ended.rest inner) (takes false u more (.inl rfl))).bind_taken takes
        inner idles ready follows
        (fun x mem => next x mem front a ((takes true).mono fun _ => .inr)) second
  | mismatch front more e same inner result blocked completes asks =>
      refine .mismatch front more e same inner (bind_error result _)
        (fun b => (blocked b).bind_left)
        (fun some b => (completes some b).bind_left (ready b) follows)
        ⟨asks.some, fun none => ?_, ?_⟩
      · exact List.Subset.trans (asks.first none) first
      · exact fun some x mem => (asks.later some x mem).bind_left (ready true) follows
  | tooDeep front more same some inner result blocked completes =>
      exact .tooDeep front more same some inner (bind_error result _) blocked.bind_left
        (completes.bind_left (ready true) follows)

/-- After some tokens the parsers `p` go on as the parsers `q` do. -/
theorem prepend (front : List Token) {more : List Token} {u : Token}
    (hq : Predicts s idle wants P q (u :: more))
    (inner : Inner front)
    (agree : ∀ b v xs, v = u ∨ idle ∧ P v → p b s (front ++ v :: xs) = q b s (v :: xs))
    (completes : front ≠ [] → ∀ b, Completes s P (p b) front)
    (offers : front ≠ [] → ∀ x ∈ wants, Offers s P (p true) x front)
    (first : front = [] → wants ⊆ wants') :
    Predicts s (front = [] ∧ idle) wants' P p (front ++ u :: more) := by
  have next (b : Bool) (xs : List Token) : p b s (front ++ u :: xs) = q b s (u :: xs) :=
    agree b u xs (.inl rfl)
  have result := next false more
  cases hq with
  | ok back more' v a same' inner' takes' idles' =>
      refine .ok (front ++ back) more' v a (by rw [same', List.append_assoc])
        (inner.append inner') (fun b => ?_) fun none => ?_
      · cases back with
        | nil =>
            obtain ⟨rfl, -⟩ := List.cons_eq_cons.mp same'
            intro w rest hw
            rw [List.append_nil]
            exact (agree b w rest (hw.imp_right (.intro (idles' rfl)))).trans (takes' b w rest hw)
        | cons x back =>
            obtain rfl := (List.cons_eq_cons.mp same').1
            exact (takes' b).after_cons (next b)
      · obtain ⟨rfl, rfl⟩ := List.append_eq_nil_iff.mp none
        exact ⟨rfl, idles' rfl⟩
  | mismatch back more' e same' inner' result' blocked' completes' asks' =>
      refine .mismatch (front ++ back) more' e (by rw [same', List.append_assoc])
        (inner.append inner') (result.trans result') (fun b => ?_) (fun some b => ?_)
        ⟨asks'.some, fun none => ?_, fun some x mem => ?_⟩
      · obtain ⟨zs, head⟩ := eq_cons_of_append same' []
        have blocked := blocked' b
        rw [List.append_assoc, head]
        rw [head] at blocked
        exact blocked.after_cons (next b)
      · cases back with
        | nil => exact (List.append_nil front).symm ▸ completes (by simpa using some) b
        | cons w back =>
            obtain rfl := (List.cons_eq_cons.mp same').1
            exact (completes' (by simp) b).after_cons (next b)
      · obtain ⟨rfl, rfl⟩ := List.append_eq_nil_iff.mp none
        exact List.Subset.trans (asks'.first rfl) (first rfl)
      · cases back with
        | nil =>
            rw [List.append_nil] at some ⊢
            exact offers some x (asks'.first rfl mem)
        | cons w back =>
            obtain rfl := (List.cons_eq_cons.mp same').1
            exact (asks'.later (by simp) x mem).after_cons (next true)
  | tooDeep back more' same' some' inner' result' blocked' completes' =>
      obtain ⟨w, back, rfl⟩ := List.exists_cons_of_ne_nil some'
      obtain rfl := (List.cons_eq_cons.mp same').1
      exact .tooDeep (front ++ u :: back) more' (by rw [same', List.append_assoc]) (by simp)
        (inner.append inner') (result.trans result') (blocked'.after_cons (next false))
        (completes'.after_cons (next true))

theorem imp {idle' : Prop} (h : Predicts s idle wants P p ts) (weaker : idle → idle') :
    Predicts s idle' wants P p ts := by
  cases h with
  | ok front more u a same inner takes idles =>
      exact .ok front more u a same inner takes fun none => weaker (idles none)
  | mismatch front more e same inner result blocked completes asks =>
      exact .mismatch front more e same inner result blocked completes asks
  | tooDeep front more same some inner result blocked completes =>
      exact .tooDeep front more same some inner result blocked completes

/-- On lists that start with the token `t` the parsers `p` do as the parsers `q` do. -/
theorem chosen {t : Token} {more : List Token} (hq : Predicts s False wants P q (t :: more))
    (agree : ∀ b xs, p b s (t :: xs) = q b s (t :: xs)) :
      Predicts s False wants P p (t :: more) := by
  refine (hq.prepend [] .nil ?_ (fun none => absurd rfl none) (fun none => absurd rfl none)
    fun _ => List.Subset.refl wants).imp And.right
  rintro b v xs (rfl | ⟨⟨⟩, -⟩)
  exact agree b xs

theorem refused {t : Token} {more : List Token} (stop : ∀ b xs, ∃ expected context,
    expected ≠ [] ∧ expected ⊆ wants ∧ p b s (t :: xs) =
      .error (.mismatch ⟨expected, context, t⟩)) :
    Predicts s idle wants P p (t :: more) := by
  obtain ⟨expected, context, some, subset, result⟩ := stop false more
  refine .mismatch [] more ⟨expected, context, t⟩ rfl .nil result (fun b xs r ok => ?_)
    (fun none => absurd rfl none) ⟨some, fun _ => subset, fun none => absurd rfl none⟩
  obtain ⟨_, _, -, -, result⟩ := stop b xs
  cases result.symm.trans ok

theorem refusal {t : Token} {more : List Token} {expected : List Expectation} {context : String}
    (some : expected ≠ []) :
    Predicts s idle expected P (fun _ => (Parser.mismatch expected context : Parser α))
      (t :: more) :=
  refused fun _ _ => ⟨expected, context, some, List.Subset.refl expected, rfl⟩

theorem ite {c : Prop} [Decidable c] (hp : c → Predicts s idle wants P p ts)
    (hq : ¬c → Predicts s idle wants P q ts) :
    Predicts s idle wants P (fun b => if c then p b else q b) ts := by
  by_cases h : c
  · simpa only [if_pos h] using hp h
  · simpa only [if_neg h] using hq h

theorem peek {k : Bool → Token → Parser α} {t : Token} {more : List Token}
    (chosen : Predicts s False wants P (k · t) (t :: more)) :
    Predicts s False wants P (fun b => Parser.peek >>= k b) (t :: more) :=
  chosen.chosen fun _ _ => rfl

end Predicts

/-! ## Loops -/

/-- The parser takes a token whenever it succeeds. -/
def Consumes (s : Scope) (p : Parser α) : Prop :=
  ∀ ts a rest, p s ts = .ok (a, rest) → rest.length < ts.length

theorem Reads.consumes {s : Scope} {p : Parser α} {R : Reading α} (h : Reads s p R)
    (takes : ∀ {a ds rest}, R a ds rest → Derivation.yieldList ds ≠ []) : Consumes s p := by
  intro ts a rest ok
  obtain ⟨ds, hR, rfl⟩ := h.ok_iff.mp ok
  have some := List.length_pos_iff.mpr (takes hR)
  rw [List.length_append]
  omega

/-- Any token may follow. -/
def anyToken (_ : Token) : Prop := True

section

variable {s : Scope} {more : Token → Bool} {item : Parser α}

theorem manyUpTo_succ (n : Nat) (ts : List Token) : manyUpTo more item (n + 1) s ts =
    if more (s.next ts) then
      (item >>= fun x => manyUpTo more item n >>= fun xs => pure (x :: xs)) s ts
    else .ok ([], ts) := by
  change (if more (s.next ts) then
      (item >>= fun x => manyUpTo more item n >>= fun xs => pure (x :: xs))
    else pure []) s ts = _
  split <;> rfl

/-- A bound beyond the number of tokens has no effect. -/
theorem manyUpTo_eq (more : Token → Bool) (consumes : Consumes s item) {m n : Nat}
    {ts : List Token} (hm : ts.length < m) (hn : ts.length < n) :
    manyUpTo more item m s ts = manyUpTo more item n s ts := by
  induction m generalizing n ts with
  | zero => omega
  | succ m ih =>
      obtain _ | n := n
      · omega
      rw [manyUpTo_succ, manyUpTo_succ]
      split
      · cases first : item s ts with
        | error failure => rw [bind_error first, bind_error first]
        | ok result =>
            obtain ⟨x, rest⟩ := result
            have shorter := consumes ts x rest first
            have same := @ih n rest (by omega) (by omega)
            rw [bind_ok first, bind_ok first]
            simp only [Bind.bind, same]
      · rfl

theorem manyUpTo_stop {n : Nat} {ts rest : List Token} {xs : List α}
    (h : manyUpTo more item n s ts = .ok (xs, rest)) : more (s.next rest) = false := by
  induction n generalizing ts xs with
  | zero => cases h
  | succ n ih =>
      rw [manyUpTo_succ] at h
      split at h
      · obtain ⟨x, mid, -, second⟩ := bind_eq_ok.mp h
        obtain ⟨xs', mid', tail, last⟩ := bind_eq_ok.mp second
        obtain ⟨-, rfl⟩ := Prod.mk.inj (Except.ok.inj last)
        exact ih tail
      · next stop =>
          obtain ⟨-, rfl⟩ := Prod.mk.inj (Except.ok.inj h)
          simpa using stop

theorem many_eq (consumes : Consumes s item) (ts : List Token) : many more item s ts =
    if more (s.next ts) then
      (item >>= fun x => many more item >>= fun xs => pure (x :: xs)) s ts
    else .ok ([], ts) := by
  rw [many, manyUpTo_succ]
  split
  · cases first : item s ts with
    | error failure => rw [bind_error first, bind_error first]
    | ok result =>
        obtain ⟨x, rest⟩ := result
        have shorter := consumes ts x rest first
        have same := manyUpTo_eq more consumes shorter (Nat.lt_succ_self rest.length)
        rw [bind_ok first, bind_ok first]
        simp only [Bind.bind, many, same]
  · rfl

variable {P : Token → Prop} {x : Expectation}

theorem many_stop (consumes : Consumes s item) (stop : ∀ v, P v → more v = false) :
    Takes s P (many more item) [] [] := by
  intro v rest hv
  rw [List.nil_append, many_eq consumes, Scope.next_cons, stop v hv]
  rfl

theorem many_ready (consumes : Consumes s item) (stop : ∀ v, P v → more v = false) (a : α) :
    Ready s P (many more item >>= fun as => pure (a :: as)) none :=
  ⟨[], [a], .nil, rfl, fun v rest hv => bind_ok (many_stop consumes stop v rest hv) _⟩

theorem Follows.none {P Q : Token → Prop} (h : ∀ v, P v → Q v) : Follows none [] P Q :=
  ⟨fun _ mem => (Option.not_mem_none _ mem).elim, fun _ mem => (List.not_mem_nil mem).elim,
    fun _ => h⟩

theorem Offers.many (h : Offers s anyToken item x []) (consumes : Consumes s item)
    (stop : ∀ v, P v → more v = false) (go : ∀ t ts, x.Names (t :: ts) → more t) :
    Offers s P (many more item) x [] := by
  have loop := h.bind_left (many_ready consumes stop) (.none fun _ _ => trivial)
  refine loop.after fun t ts names xs => ?_
  rw [List.nil_append, many_eq consumes, Scope.next_cons, if_pos (go t ts names)]

theorem Offers.idle {p : Parser α} {a : α} (h : Takes s P p [] a) (names : ∀ v, P v → x.Names [v]) :
    Offers s P p x [] :=
  ⟨[], a, .nil, fun v hv => (names v hv).starts [], h⟩

end

/-- A pair of parsers that predict: each run of theirs is as it should be, and they take some list
that starts with `start`. Only parsers without a start may take nothing. Before they have taken any
token they ask for some of `wants`, and the second one goes on with any of these. -/
structure Predictive (s : Scope) (start : Option Token) (wants : List Expectation)
    (P : Token → Prop) (p : Bool → Parser α) : Prop where
  run : ∀ ts, Ended ts → Predicts s (start = none) wants P p ts
  ready : ∀ b, Ready s P (p b) start
  offers : ∀ x ∈ wants, Offers s P (p true) x []

theorem Follows.some {t : Token} {wants : List Expectation} {P Q : Token → Prop} (h : Q t)
    (wanted : ∀ x ∈ wants, ∀ t ts, x.Names (t :: ts) → Q t) : Follows (some t) wants P Q :=
  ⟨fun _ mem => Option.mem_some.mp mem ▸ h, wanted, fun none => by cases none⟩

theorem Follows.kind {t : Token} {k : Token.Kind} {P Q : Token → Prop} (sample : t.kind = k)
    (h : ∀ v : Token, v.kind = k → Q v) : Follows (Option.some t) [.kind k] P Q := by
  refine .some (h t sample) fun x mem v ts names => ?_
  obtain rfl := List.mem_singleton.mp mem
  exact h v (Expectation.kind_of_names names)

theorem follows_any {start : Option Token} {wants : List Expectation} {P : Token → Prop} :
    Follows start wants P anyToken :=
  ⟨fun _ _ => trivial, fun _ _ _ _ _ => trivial, fun _ _ _ => trivial⟩

namespace Predictive

variable {s : Scope} {P Q : Token → Prop} {p : Bool → Parser α} {wants : List Expectation}

theorem eats {t : Token} {ts : List Token} (h : Predictive s (some t) wants P p)
    (ended : Ended ts) : Predicts s False wants P p ts :=
  (h.run ts ended).imp nofun

/-- What a sequence asks for first: what its second parser asks for counts only if the first one may
take nothing. -/
def joined (start : Option Token) (wants₁ wants₂ : List Expectation) : List Expectation :=
  match start with
  | none => wants₁ ++ wants₂
  | some _ => wants₁

theorem bind {f : Bool → α → Parser β} {start₁ start₂ : Option Token}
    {wants₁ wants₂ : List Expectation}
    (hp : Predictive s start₁ wants₁ Q p) (hf : ∀ a, Predictive s start₂ wants₂ P (f · a))
    (follows : Follows start₂ wants₂ P Q) :
    Predictive s (start₁.or start₂) (joined start₁ wants₁ wants₂) P fun b => p b >>= f b := by
  have ready (b : Bool) (a : α) := (hf a).ready b
  have next : ∀ x ∈ wants₂, ∀ front a, Takes s Q (p true) front a →
      Offers s P (p true >>= f true) x front := fun x mem front a takes =>
    .bind_next takes ((hf a).offers x mem) (follows.asked x mem)
  have own : ∀ x ∈ wants₁, Offers s P (p true >>= f true) x [] := fun x mem =>
    (hp.offers x mem).bind_left (ready true) follows.unasked
  refine ⟨fun ts ended => ?_, fun b => (hp.ready b).bind (ready b) follows.unasked, ?_⟩
  · refine ((hp.run ts ended).bind ended (fun a rest ended' _ => (hf a).run rest ended') ready
      follows.unasked next ?_ ?_).imp ?_
    · cases start₁ with
      | none => exact List.subset_append_left wants₁ wants₂
      | some t => exact List.Subset.refl wants₁
    · rintro rfl
      exact List.subset_append_right wants₁ wants₂
    · rintro ⟨rfl, rfl⟩
      rfl
  · cases start₁ with
    | none =>
        obtain ⟨tail, a, -, head, takes⟩ := hp.ready true
        obtain rfl := List.head?_eq_none_iff.mp head
        exact List.forall_mem_append.mpr ⟨own, fun x mem => next x mem [] a takes⟩
    | some t => exact own

theorem step {f : Bool → α → Parser β} {t : Token} {start : Option Token}
    {wants₂ : List Expectation} (hp : Predictive s (some t) wants anyToken p)
    (hf : ∀ a, Predictive s start wants₂ P (f · a)) :
    Predictive s (some t) wants P fun b => p b >>= f b :=
  hp.bind hf follows_any

theorem last {f : Bool → α → Parser β} {start : Option Token} (hp : Predictive s start wants P p)
    (hf : ∀ a, Predictive s none [] P (f · a)) :
      Predictive s start wants P fun b => p b >>= f b := by
  have sequence := hp.bind hf (.none fun _ => id)
  have same : joined start wants [] = wants := by
    cases start with
    | none => exact List.append_nil wants
    | some t => rfl
  rwa [Option.or_none, same] at sequence

theorem still {a : α} (h : ∀ b ts, p b s ts = .ok (a, ts)) : Predictive s none [] P p where
  run ts ended := by
    obtain ⟨t, more, rfl⟩ := ended.exists_cons
    exact .ok [] more t a rfl .nil (fun b v rest _ => h b (v :: rest)) fun _ => rfl
  ready b := ⟨[], a, .nil, rfl, fun v rest _ => h b (v :: rest)⟩
  offers := nofun

theorem pure (a : α) : Predictive s none [] P fun _ => (Pure.pure a : Parser α) :=
  still fun _ _ => rfl

theorem node (r : Rule) (first last : Token) (children : List Node) :
    Predictive s none [] P fun _ => Parser.node r first last children :=
  still fun _ _ => rfl

theorem leaves (r : Rule) (words : List Token) :
    Predictive s none [] P fun _ => Parser.leaves r words :=
  still fun _ _ => rfl

/-- A parser that goes on as another one does after some first tokens if the next token is right. -/
theorem afterIf {q : Bool → Parser α} {start : Option Token} {front more : List Token} {u : Token}
    {wants' : List Expectation}
    (hq : Predictive s start wants P q) (follows : Follows start wants P Q) (some : front ≠ [])
    (inner : Inner front) (agree : ∀ b v xs, Q v → p b s (front ++ v :: xs) = q b s (v :: xs))
    (hu : Q u) (ended : Ended (front ++ u :: more)) :
    Predicts s False wants' P p (front ++ u :: more) := by
  refine ((hq.run (u :: more) (ended.rest inner)).prepend front inner ?_ (fun _ b => ?_)
    (fun _ x mem => ?_) fun none => absurd none some).imp fun h => some h.1
  · rintro b v xs (rfl | ⟨none, hv⟩)
    · exact agree b v xs hu
    · exact agree b v xs (follows.idle none v hv)
  · obtain ⟨tail, a, inner', rfl, takes⟩ := hq.ready b
    refine ⟨tail, a, inner', fun v rest hv => ?_⟩
    rw [List.append_assoc, ← takes v rest hv]
    cases tail with
    | nil => exact agree b v rest (follows.head v hv v rfl)
    | cons w tail => exact agree b w (tail ++ v :: rest) (follows.head v hv w rfl)
  · exact (hq.offers x mem).after fun t ts names xs =>
      agree true t xs (follows.asked x mem t ts names)

theorem after {q : Bool → Parser α} {start : Option Token} {front ts : List Token}
    {wants' : List Expectation} (hq : Predictive s start wants P q) (some : front ≠ [])
    (inner : Inner front) (agree : ∀ b xs, p b s (front ++ xs) = q b s xs)
    (ended : Ended (front ++ ts)) : Predicts s False wants' P p (front ++ ts) := by
  obtain ⟨u, more, rfl⟩ := (ended.rest inner).exists_cons
  exact hq.afterIf follows_any some inner (fun b v xs _ => agree b (v :: xs)) trivial ended

theorem ready_peek {k : Token → Parser α} {t : Token} (h : Ready s P (k t) (some t)) :
    Ready s P (Parser.peek >>= k) (some t) := by
  obtain ⟨tail, a, inner, head, takes⟩ := h
  obtain ⟨tail, rfl⟩ := List.head?_eq_some_iff.mp head
  exact ⟨t :: tail, a, inner, rfl, takes⟩

theorem look {k : Bool → Token → Parser α} {t : Token}
    (run : ∀ t more, Ended (t :: more) → Predicts s False wants P (k · t) (t :: more))
    (ready : ∀ b, Ready s P (k b t) (some t))
    (offers : ∀ x ∈ wants, Offers s P (Parser.peek >>= k true) x []) :
    Predictive s (some t) wants P fun b => Parser.peek >>= k b where
  run ts ended := by
    obtain ⟨u, more, rfl⟩ := ended.exists_cons
    refine Predicts.imp ?_ False.elim
    exact (run u more ended).peek
  ready b := ready_peek (ready b)
  offers := offers

theorem lookFor {k : Bool → Token → Parser α} {t : Token} {x : Expectation} (names : x.Names [t])
    (run : ∀ t more, Ended (t :: more) → Predicts s False [x] P (k · t) (t :: more))
    (ready : ∀ b, Ready s P (k b t) (some t)) :
    Predictive s (some t) [x] P fun b => Parser.peek >>= k b := by
  refine look run ready fun y mem => ?_
  obtain rfl := List.mem_singleton.mp mem
  exact (ready_peek (ready true)).offers names

theorem lookIdle {c : Token → Prop} [DecidablePred c] {a : α}
    (run : ∀ t more, Ended (t :: more) → c t → Predicts s False [] P p (t :: more))
    (stop : ∀ v, P v → ¬c v) :
    Predictive s none [] P fun b => do if c (← Parser.peek) then p b else Pure.pure a where
  run ts ended := by
    obtain ⟨t, more, rfl⟩ := ended.exists_cons
    by_cases h : c t
    · refine ((run t more ended h).chosen fun b xs => ?_).imp False.elim
      change (if c t then p b else Pure.pure a) s (t :: xs) = _
      rw [if_pos h]
    · refine .ok [] more t a rfl .nil (fun b v rest hv => ?_) fun _ => rfl
      have halt : ¬c v := by
        obtain rfl | hv := hv
        · exact h
        · exact stop v hv
      change (if c v then p b else Pure.pure a) s (v :: rest) = _
      rw [if_neg halt]
      rfl
  ready b := by
    refine ⟨[], a, .nil, rfl, fun v rest hv => ?_⟩
    change (if c v then p b else Pure.pure a) s (v :: rest) = _
    rw [if_neg (stop v hv)]
    rfl
  offers := nofun

theorem takeIf {c : Token → Prop} [DecidablePred c] {t : Token} {x : Expectation} (sample : c t)
    (inner : ∀ t, c t → t.kind ≠ .eof) (names : x.Names [t]) (context : String) :
    Predictive s (some t) [x] P fun _ => (do
      if c (← Parser.peek) then Parser.advance else Parser.mismatch [x] context) := by
  refine lookFor names (fun u more ended => ?_) fun _ => ?_
  · refine .ite (fun h => ?_) fun _ => .refusal (List.cons_ne_nil x [])
    exact (pure u).after (List.cons_ne_nil u []) (.cons (inner u h) .nil) (fun _ _ => rfl) ended
  · rw [if_pos sample]
    exact ⟨[t], t, .cons (inner t sample) .nil, rfl, fun v rest _ => rfl⟩

theorem expectAs {k : Token.Kind} {t : Token} {x : Expectation} (sample : t.kind = k)
    (inner : k ≠ .eof) (names : x.Names [t]) (context : String) :
    Predictive s (some t) [x] P fun _ => Parser.expectAs k [x] context :=
  takeIf (c := (·.kind = k)) sample (fun _ ht => ht.symm ▸ inner) names context

theorem expect {k : Token.Kind} {t : Token} (sample : t.kind = k) (inner : k ≠ .eof)
    (context : String) : Predictive s (some t) [.kind k] P fun _ => Parser.expect k context :=
  expectAs sample inner (Expectation.names_kind sample) context

theorem keyword {w : String} {t : Token} (sample : t.isWord w) (context : String) :
    Predictive s (some t) [.word w] P fun _ => Parser.keyword w context :=
  takeIf (c := (·.isWord w)) sample (fun t ht => by simp_all [Token.isWord])
    (Expectation.names_word sample) context

theorem leaf {k : Token.Kind} {t : Token} {r : Rule} (sample : t.kind = k) (inner : k ≠ .eof)
    (names : (Expectation.rule r).Names [t]) (context : String) :
    Predictive s (some t) [.rule r] P fun _ => Parser.leaf k r context :=
  (expectAs sample inner names context).step fun t => node r t t []

theorem many {more : Token → Bool} {item : Bool → Parser α} (consumes : ∀ b, Consumes s (item b))
    (run : ∀ t rest, Ended (t :: rest) → more t → Predicts s False wants anyToken item (t :: rest))
    (stop : ∀ v, P v → more v = false)
    (offers : ∀ x ∈ wants, Offers s P (Parser.many more (item true)) x []) :
    Predictive s none wants P fun b => Parser.many more (item b) where
  run ts ended := by
    -- each item takes a token, so the induction is on the number of tokens
    induction hn : ts.length using Nat.strong_induction_on generalizing ts with
    | _ n ih =>
        obtain ⟨t, rest, rfl⟩ := ended.exists_cons
        by_cases go : more t
        · have next : ∀ y ∈ wants, ∀ front x, Takes s anyToken (item true) front x →
              Offers s P (item true >>= fun x => Parser.many more (item true) >>= fun xs =>
                Pure.pure (x :: xs)) y front := fun y mem front x takes =>
            .bind_next takes ((offers y mem).bind_left (fun xs => (pure (x :: xs)).ready true)
              (.none fun _ => id)) fun _ _ _ => trivial
          have round := (run t rest ended go).bind ended (fun x after ended' first =>
            ((ih after.length (hn ▸ consumes false _ _ _ first) after ended' rfl).bind ended'
              (fun xs after' ended'' _ => (pure (x :: xs)).run after' ended'')
              (fun _ xs => (pure (x :: xs)).ready false) (.none fun _ => id) nofun
              (List.Subset.refl wants) fun _ => List.nil_subset wants).imp And.right)
            (fun b => many_ready (consumes b) stop) follows_any next (List.Subset.refl wants) nofun
          refine (Predicts.prepend [] round .nil ?_ (fun none => absurd rfl none)
            (fun none => absurd rfl none) fun _ => List.Subset.refl wants).imp fun h => rfl
          rintro b v xs (rfl | ⟨⟨⟨⟩, -⟩, -⟩)
          rw [List.nil_append, many_eq (consumes b), Scope.next_cons, if_pos go]
        · refine .ok [] rest t [] rfl .nil (fun b v rest hv => ?_) fun _ => rfl
          have halt : more v = false := by
            obtain rfl | hv := hv
            · simpa using go
            · exact stop v hv
          rw [List.nil_append, many_eq (consumes b), Scope.next_cons, halt]
          rfl
  ready b := ⟨[], [], .nil, rfl, many_stop (consumes b) stop⟩
  offers := offers

end Predictive

end Parser

end ProtoSchema
