import Stackling.Proofs.Datum.RoundTrip
import Stackling.Proofs.Text.Utf8

/-!
# Reading and writing are inverse

Reading gives proper data only (`proper_of_ofText`): a mark that is cut off a text is a bracket or a
proper atom, and putting marks together keeps everything in the open lists proper. Proper data are
read back from their written form. So they are exactly the data that texts are read as, and writing
and reading are inverse to each other (`ofText_text`).
-/

namespace Stackling.Datum

/-! ## Marks -/

/-- A mark that is a bracket or a proper atom. -/
def Mark.Proper : Mark → Prop
  | .atom d => d.Proper
  | .opening _ | .closing _ => True

namespace Scan

/-- The marks are proper. -/
def Proper : Scan → Prop
  | .mark _ m rest => m.Proper ∧ rest.Proper
  | .done _ | .failed _ => True

/-- How an atom starts does not depend on what is behind the run of its characters. -/
theorem startsInteger_takeWhile {p : Char → Bool}
    (hp : ∀ d, Text.isDecimalDigit d = true → p d = true) (c : Char) (cs : List Char) :
    startsInteger c (cs.takeWhile p).head? = startsInteger c cs.head? := by
  cases cs with
  | nil => rfl
  | cons d cs =>
    rw [List.takeWhile_cons]
    split
    · rfl
    · next hd =>
      have hno : Text.isDecimalDigit d = false := by
        rw [← Bool.not_eq_true]
        exact fun h => hd (hp d h)
      simp [startsInteger, hno]

theorem bracket?_proper {c : Char} {m : Mark} (h : bracket? c = some m) : m.Proper := by
  unfold bracket? at h
  split at h <;> cases h <;> trivial

/-- A mark that is scanned is proper: symbols and integers are made of the characters they may have.
-/
theorem scanMark_proper {line next : Nat} {c : Char} {cs rest : List Char} {m : Mark}
    (h : scanMark line c cs = .ok (m, next, rest)) : m.Proper := by
  unfold scanMark at h
  split at h
  · next m' hm =>
    cases h
    exact bracket?_proper hm
  split at h
  · obtain ⟨⟨content, end'⟩, -, hr⟩ := exists_of_map_eq_ok h
    cases hr
    exact .string _
  split at h
  · split at h
    · cases h
      exact .ellipsis
    · cases h
  split at h
  · next hstart =>
    cases h
    refine .integer ?_
    rw [String.toList_ofList]
    exact .mk ((startsInteger_takeWhile (fun _ h => h) c cs).trans hstart)
      fun d hd => List.all_eq_true.mp List.all_takeWhile d hd
  · next hstart =>
    split at h
    · next hc =>
      cases h
      refine .symbol ?_
      rw [String.toList_ofList]
      refine .mk hc ?_ fun d hd => List.all_eq_true.mp List.all_takeWhile d hd
      rw [startsInteger_takeWhile (fun _ h => isSymbolChar_of_isDecimalDigit h)]
      exact Bool.eq_false_iff.mpr hstart
    · cases h

/-- All marks of a scan are proper, by induction on the scan. -/
theorem scanFrom_proper (line : Nat) (cs : List Char) : (scanFrom line cs).Proper := by
  fun_induction scanFrom line cs with
  | case1 => trivial
  | case2 => trivial
  | case3 line cs start c rest hg m next left hm _ ih => exact ⟨scanMark_proper hm, ih⟩

end Scan

/-! ## Putting marks together -/

theorem proper_wrap {ds : List Datum} (h : ∀ d ∈ ds, d.Proper) (b : Bracket) :
    (b.wrap ds).Proper := by
  cases b with
  | round => exact .list h
  | square => exact .array h

/-- The items of an open list are proper. -/
def Pending.Proper (p : Pending) : Prop := ∀ d ∈ p.items, d.Proper

/-- A bracket that is closed is proper if what it holds is. -/
theorem Pending.Proper.close {p : Pending} (h : p.Proper) : p.close.Proper :=
  proper_wrap (fun d hd => h d (List.mem_reverse.mp hd)) p.bracket

theorem Pending.Proper.cons {p : Pending} (h : p.Proper) {d : Datum} (hd : d.Proper) :
    Pending.Proper ⟨p.bracket, d :: p.items⟩ :=
  List.forall_mem_cons.mpr ⟨hd, h⟩

/-- A datum that is read to its end is proper. -/
theorem atEnd_proper {d d' : Datum} {s : Scan} (hd : d.Proper) (h : fromScan.atEnd d s = .ok d') :
    d'.Proper := by
  cases s with
  | done line =>
    cases h
    exact hd
  | failed e => cases h
  | mark line m rest => cases h

/-- Putting a proper datum into brackets that hold proper data. -/
theorem place_proper {d d' : Datum} {stack : List Pending} {s : Scan} (hd : d.Proper)
    (hstack : ∀ p ∈ stack, p.Proper)
    (hmore : ∀ {stack : List Pending}, (∀ p ∈ stack, p.Proper) → fromScan stack s = .ok d' →
      d'.Proper)
    (h : place d stack s = .ok d') : d'.Proper := by
  cases stack with
  | nil => exact atEnd_proper hd h
  | cons p outer =>
    obtain ⟨hp, houter⟩ := List.forall_mem_cons.mp hstack
    exact hmore (List.forall_mem_cons.mpr ⟨hp.cons hd, houter⟩) h

/-- **Reading proper marks** into lists of proper items gives a proper datum. -/
theorem fromScan_proper {s : Scan} (hs : s.Proper) {stack : List Pending}
    (hstack : ∀ p ∈ stack, p.Proper) {d : Datum} (h : fromScan stack s = .ok d) : d.Proper := by
  induction s generalizing stack with
  | failed e => cases h
  | done line => cases stack <;> cases h
  | mark line m rest ih =>
    obtain ⟨hm, hrest⟩ := hs
    cases m with
    | atom d' =>
      rw [fromScan_atom] at h
      exact place_proper hm hstack (ih hrest) h
    | opening b =>
      rw [fromScan_opening] at h
      have hempty : Pending.Proper ⟨b, []⟩ := List.forall_mem_nil _
      exact ih hrest (List.forall_mem_cons.mpr ⟨hempty, hstack⟩) h
    | closing b =>
      cases stack with
      | nil => cases h
      | cons p outer =>
        obtain ⟨hp, houter⟩ := List.forall_mem_cons.mp hstack
        by_cases hb : p.bracket = b
        · subst hb
          have hclose := fromScan_closing p.bracket p.items.reverse line outer rest
          rw [List.reverse_reverse] at hclose
          exact place_proper hp.close houter (ih hrest) (hclose.symm.trans h)
        · simp [fromScan, hb] at h

/-- A text is read as a proper datum, if at all. -/
theorem proper_of_ofText {cs : List Char} {d : Datum} (h : ofText cs = .ok d) : d.Proper :=
  fromScan_proper (Scan.scanFrom_proper 1 cs) (List.forall_mem_nil _) h

/-! ## Both ways -/

/-- The bytes of a datum's written form are read as its characters. -/
theorem decode_text (d : Datum) : Utf8.decode (Bytes.ofString d.text) = d.chars := by
  rw [Bytes.ofString, Utf8.decode_encoded, text, String.toList_ofList]

/-- **Reading and writing are inverse.** A datum is read back from its written form exactly if it is
proper. And the datum that any bytes are read as is proper, so that it is read again from what is
written for it. -/
theorem ofText_text (d : Datum) :
    (d.Proper ↔ ofText (Utf8.decode (Bytes.ofString d.text)) = .ok d) ∧
    ∀ input : Bytes, ofText (Utf8.decode input) = .ok d →
      d.Proper ∧ ofText (Utf8.decode (Bytes.ofString d.text)) = ofText (Utf8.decode input) := by
  rw [decode_text]
  refine ⟨⟨Proper.ofText_chars, proper_of_ofText⟩, fun input h => ?_⟩
  have hproper := proper_of_ofText h
  exact ⟨hproper, by rw [hproper.ofText_chars, h]⟩

end Stackling.Datum
