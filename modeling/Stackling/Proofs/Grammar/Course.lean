import Mathlib.Computability.Language
import Stackling.Proofs.Grammar.Boundary
import Stackling.Proofs.Grammar.Script

/-!
# Readers that stop at the first impossible token

`Course m L ts` describes what the reader `m` does on the tokens `ts`, where `L` is the language of
what it is meant to read.

* **Done.** It takes a word of `L`.
* **Stuck.** It complains about the token after a beginning of such a word.
* It finds a number that is out of range.

In the first two cases the reader has looked at one token beyond those it took. Whatever comes after
that token, it does the same. This is what makes a token on which it is stuck impossible there, and
what lets courses be put together (`Course.bind`): a reader that follows another one does not change
what the first one did.
-/

namespace Stackling.Grammar

open Stackling.Tree

variable {α β : Type}

/-! ## Languages -/

/-- What derivations derive. -/
def language {δ : Type} (yield : δ → List Token) : Language Token := Set.range yield

/-- The tokens of a kind. -/
abbrev terminal (k : Kind) : Language Token := language fun t : Terminal k => [t.1]

/-- A language with at least one word. -/
class HasWord (L : Language Token) : Prop where
  exists_mem : ∃ word, word ∈ L

instance {δ : Type} [h : Nonempty δ] (yield : δ → List Token) : HasWord (language yield) :=
  h.elim fun d => ⟨yield d, d, rfl⟩

instance (L L' : Language Token) [h : HasWord L] [h' : HasWord L'] : HasWord (L * L') := by
  obtain ⟨word, hword⟩ := h.exists_mem
  obtain ⟨word', hword'⟩ := h'.exists_mem
  exact ⟨word ++ word', Language.append_mem_mul hword hword'⟩

instance : HasWord 1 := ⟨[], Language.nil_mem_one⟩

/-! ## Courses -/

/-- What a reader of the language `L` does on `ts`, whatever comes after the token it stops at. -/
inductive Course (m : Script α) (L : Language Token) (ts : List Token) : Prop where
  | done (used : List Token) {rest : List Token} {a : α}
      (hts : ts = used ++ rest) (hused : used ∈ L)
      (h : ∀ eof rest', eof.kind = .eof → rest'.head? = rest.head? →
        m eof (used ++ rest') = .ok (a, rest')) : Course m L ts
  | stuck (used : List Token) {rest more : List Token} {x : Expected}
      (hts : ts = used ++ rest) (hmore : used ++ more ∈ L)
      (h : ∀ eof rest', eof.kind = .eof → rest'.head? = rest.head? →
        m eof (used ++ rest') = .error (.unexpected x (current eof rest'))) : Course m L ts
  | outOfRange {t : Token} (h : ∀ eof, eof.kind = .eof → m eof ts = .error (.outOfRange t)) :
      Course m L ts

section

variable {m m' : Script α} {L L' : Language Token} {ts rest : List Token}

theorem head?_append_congr (used : List Token) {rest rest' : List Token}
    (h : rest'.head? = rest.head?) : (used ++ rest').head? = (used ++ rest).head? := by
  cases used with
  | nil => exact h
  | cons t used => rfl

namespace Course

theorem mono (h : Course m L ts) (hle : ∀ word ∈ L, word ∈ L') : Course m L' ts := by
  cases h with
  | done used hts hused h => exact .done used hts (hle _ hused) h
  | stuck used hts hmore h => exact .stuck used hts (hle _ hmore) h
  | outOfRange h => exact .outOfRange h

theorem pure (a : α) : Course (pure a) 1 ts :=
  .done [] (List.nil_append ts).symm Language.nil_mem_one fun _ _ _ _ => rfl

/-- A reader may decide by the next token what to do. -/
theorem of_head (h : Course m' L ts) (heq : ∀ eof ts', eof.kind = .eof → ts'.head? = ts.head? →
      m eof ts' = m' eof ts') : Course m L ts := by
  cases h with
  | @done used rest a hts hused h =>
    refine .done used (a := a) hts hused fun eof rest' heof hhead => ?_
    rw [heq eof _ heof (hts ▸ head?_append_congr used hhead), h eof rest' heof hhead]
  | @stuck used rest more x hts hmore h =>
    refine .stuck used (x := x) hts hmore fun eof rest' heof hhead => ?_
    rw [heq eof _ heof (hts ▸ head?_append_congr used hhead), h eof rest' heof hhead]
  | outOfRange h =>
    exact .outOfRange fun eof heof => by rw [heq eof ts heof rfl, h eof heof]

/-- A reader may complain about the next token. -/
theorem fail [hL : HasWord L] {x : Expected}
    (h : ∀ eof ts', eof.kind = .eof → ts'.head? = ts.head? → m eof ts' = fail x eof ts') :
    Course m L ts := by
  obtain ⟨word, hword⟩ := hL.exists_mem
  exact .stuck [] rfl hword h

/-- A reader may take the next token, and do the rest of its work behind it. -/
theorem cons {t : Token} (h : Course m' L' rest) (hle : ∀ word ∈ L', t :: word ∈ L)
    (heq : ∀ eof rest', eof.kind = .eof → m eof (t :: rest') = m' eof rest') :
    Course m L (t :: rest) := by
  cases h with
  | @done used left a hts hused h =>
    refine .done (t :: used) (a := a) (by rw [hts]; rfl) (hle _ hused) ?_
    intro eof rest' heof hhead
    rw [List.cons_append, heq eof _ heof, h eof rest' heof hhead]
  | @stuck used left more x hts hmore h =>
    refine .stuck (t :: used) (x := x) (by rw [hts]; rfl) (hle _ hmore) ?_
    intro eof rest' heof hhead
    rw [List.cons_append, heq eof _ heof, h eof rest' heof hhead]
  | outOfRange h => exact .outOfRange fun eof heof => by rw [heq eof _ heof, h eof heof]

/-- **One reader after another.** The second one has to have something that it could read, so that
what the first one leaves unfinished can be finished. -/
theorem bind [hL' : HasWord L'] {f : α → Script β} (h : Course m L ts)
    (hf : ∀ a used rest, ts = used ++ rest → used ∈ L → Course (f a) L' rest) :
    Course (m >>= f) (L * L') ts := by
  cases h with
  | @done used rest a hts hused h =>
    subst hts
    have hbind : ∀ eof rest', eof.kind = .eof → rest'.head? = rest.head? →
        (m >>= f) eof (used ++ rest') = f a eof rest' :=
      fun eof rest' heof hhead => Script.bind_of_ok (h eof rest' heof hhead)
    cases hf a used rest rfl hused with
    | @done used' rest' b hrest hused' h' =>
      refine .done (used ++ used') (a := b) (by rw [hrest, List.append_assoc])
        (Language.append_mem_mul hused hused') ?_
      intro eof left heof hhead
      rw [List.append_assoc, hbind eof _ heof (hrest ▸ head?_append_congr used' hhead),
        h' eof left heof hhead]
    | @stuck used' rest' more x hrest hmore h' =>
      refine .stuck (used ++ used') (x := x) (by rw [hrest, List.append_assoc])
        (by rw [List.append_assoc]; exact Language.append_mem_mul hused hmore) ?_
      intro eof left heof hhead
      rw [List.append_assoc, hbind eof _ heof (hrest ▸ head?_append_congr used' hhead),
        h' eof left heof hhead]
    | outOfRange h' =>
      exact .outOfRange fun eof heof => by rw [hbind eof rest heof rfl, h' eof heof]
  | @stuck used rest more x hts hmore h =>
    obtain ⟨word, hword⟩ := hL'.exists_mem
    have hwhole : used ++ (more ++ word) ∈ L * L' := by
      rw [← List.append_assoc]
      exact Language.append_mem_mul hmore hword
    exact .stuck used hts hwhole fun eof rest' heof hhead =>
      Script.bind_of_error (h eof rest' heof hhead)
  | outOfRange h => exact .outOfRange fun eof heof => Script.bind_of_error (h eof heof)

/-- The last step of a reader makes a value of what was read. -/
theorem bind_pure (h : Course m L ts) (g : α → β) :
    Course (m >>= fun a => Pure.pure (g a)) L ts := by
  have := h.bind (f := fun a => Pure.pure (g a)) fun a used rest _ _ => Course.pure (g a)
  rwa [mul_one] at this

end Course

/-! ## Single tokens -/

theorem exists_cons_of_head? {t : Token} {ts' : List Token} (h : ts'.head? = (t :: rest).head?) :
    ∃ rest', ts' = t :: rest' :=
  List.head?_eq_some_iff.mp h

theorem eq_nil_of_head? {ts' : List Token} (h : ts'.head? = ([] : List Token).head?) : ts' = [] :=
  List.head?_eq_none_iff.mp h

instance (k : Kind) : Nonempty (Terminal k) := ⟨⟨⟨k, "", .start⟩, rfl⟩⟩

instance : Nonempty TypeWord := ⟨⟨⟨.keyword .int, "", .start⟩, rfl⟩⟩

/-- A reader that goes by the first token has a course if what it does behind that token has one. -/
theorem Course.lead [HasWord L] {x : Expected} {f : Token → Option (Script α)}
    (h : ∀ {t : Token} {rest : List Token} {s : Script α}, ts = t :: rest → f t = some s →
      ∃ L', Course s L' rest ∧ ∀ word ∈ L', t :: word ∈ L) : Course (Script.lead x f) L ts := by
  rcases ts with _ | ⟨t, rest⟩
  · refine .fail (x := x) fun eof ts' _ h => ?_
    rw [eq_nil_of_head? h]
    rfl
  cases hs : f t with
  | some s =>
    obtain ⟨L', hcourse, hle⟩ := h rfl hs
    exact hcourse.cons hle fun eof rest' _ => by rw [Script.lead, hs]
  | none =>
    refine .fail (x := x) fun eof ts' _ h => ?_
    obtain ⟨rest', rfl⟩ := exists_cons_of_head? h
    rw [Script.lead, hs]

/-- A reader that takes one token if it is of a certain sort. -/
theorem Course.single {p : Token → Prop} [DecidablePred p] [Nonempty { t // p t }] {x : Expected}
    {g : Token → α} : Course (Script.lead x fun t => if p t then some (Pure.pure (g t)) else none)
      (language fun t : { t // p t } => [t.1]) ts := by
  refine .lead fun {t rest s} _ hs => ?_
  obtain ⟨ht, heq⟩ := Option.ite_none_right_eq_some.mp hs
  cases heq
  refine ⟨1, .pure (g t), ?_⟩
  rintro _ rfl
  exact ⟨⟨t, ht⟩, rfl⟩

theorem token_course (k : Kind) (ts : List Token) : Course (token k) (terminal k) ts := by
  rw [token_eq]
  exact .single

theorem typeName_course (ts : List Token) :
    Course typeName (language fun t : TypeWord => [t.1]) ts := by
  rw [typeName_eq]
  exact .single

end

end Stackling.Grammar
