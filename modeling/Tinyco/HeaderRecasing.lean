import Mathlib.Data.List.Forall2
import Tinyco.RequestIsolation

/-! Requests that differ in the case of their field names only: the callbacks, the strings that are
stored for the headers and the pairs that are made of them. -/

namespace Tinyco

open HttpParserImpl

section FilterMap

variable {α γ : Type*} {R : α → α → Prop} {S : γ → γ → Prop} {f : α → Option γ}

theorem forall₂_filterMap {l l' : List α} (h : List.Forall₂ R l l')
    (hf : ∀ a b, R a b → Option.Rel S (f a) (f b)) :
    List.Forall₂ S (l.filterMap f) (l'.filterMap f) := by
  induction h with
  | nil => exact .nil
  | @cons a b l l' hab _ ih =>
    have hrel := hf a b hab
    rw [List.filterMap_cons, List.filterMap_cons]
    cases ha : f a <;> cases hb : f b <;> rw [ha, hb] at hrel <;> cases hrel
    · exact ih
    · next hs => exact .cons hs ih

theorem exists_forall₂_filterMap (hnone : ∀ a, f a = none → R a a)
    (hsome : ∀ a s t, f a = some s → S s t → ∃ b, R a b ∧ f b = some t) {l : List α} {ts : List γ}
    (h : List.Forall₂ S (l.filterMap f) ts) : ∃ l', List.Forall₂ R l l' ∧ l'.filterMap f = ts := by
  induction l generalizing ts with
  | nil => exact ⟨[], .nil, (List.forall₂_nil_left_iff.mp h).symm⟩
  | cons a l ih =>
    cases ha : f a with
    | none =>
      rw [List.filterMap_cons_none ha] at h
      obtain ⟨l', hl, hts⟩ := ih h
      exact ⟨a :: l', .cons (hnone a ha) hl, by rw [List.filterMap_cons_none ha, hts]⟩
    | some s =>
      rw [List.filterMap_cons_some ha] at h
      obtain ⟨t, ts, hst, htail, rfl⟩ := List.forall₂_cons_left_iff.mp h
      obtain ⟨l', hl, hts⟩ := ih htail
      obtain ⟨b, hab, hb⟩ := hsome a s t ha hst
      exact ⟨b :: l', .cons hab hl, by rw [List.filterMap_cons_some hb, hts]⟩

end FilterMap

/-- A string of the vector `headers`, by the callback it comes from. -/
inductive HeaderString where
  | name (s : Bytes)
  | value (s : Bytes)
  deriving DecidableEq

namespace HeaderString

def text : HeaderString → Bytes
  | .name s => s
  | .value s => s

inductive Recased : HeaderString → HeaderString → Prop
  | name {a b : Bytes} (h : a.map tolower = b.map tolower) : Recased (.name a) (.name b)
  | value (a : Bytes) : Recased (.value a) (.value a)

theorem Recased.refl (x : HeaderString) : x.Recased x := by
  cases x with
  | name a => exact .name rfl
  | value a => exact .value a

end HeaderString

namespace ParserEvent

def taggedString : ParserEvent → Option HeaderString
  | .headerField data => some (.name data)
  | .headerValue data => some (.value data)
  | _ => none

inductive Recased : ParserEvent → ParserEvent → Prop
  | refl (e : ParserEvent) : Recased e e
  | name {a b : Bytes} (h : a.map tolower = b.map tolower) :
    Recased (.headerField a) (.headerField b)

theorem Recased.taggedString {e e' : ParserEvent} (h : e.Recased e') :
    Option.Rel HeaderString.Recased e.taggedString e'.taggedString := by
  cases h with
  | refl e =>
    cases e.taggedString with
    | none => exact .none
    | some t => exact .some (.refl t)
  | name h => exact .some (.name h)

theorem exists_recased {e : ParserEvent} {s t : HeaderString} (he : e.taggedString = some s)
    (h : s.Recased t) : ∃ e', e.Recased e' ∧ e'.taggedString = some t := by
  cases h with
  | @name a b h =>
    cases e <;> cases he
    exact ⟨.headerField b, .name h, rfl⟩
  | value a => exact ⟨e, .refl e, he⟩

end ParserEvent

namespace ParserScan

/-- The scan of the same message with another case of its field names. -/
structure Recased (sc sc' : ParserScan) : Prop where
  events : List.Forall₂ (fun x y => x.1.Recased y.1 ∧ x.2 = y.2) sc.events sc'.events
  nparsed : sc'.nparsed = sc.nparsed
  method : sc'.method = sc.method
  statusCode : sc'.statusCode = sc.statusCode

def strings (sc : ParserScan) : List HeaderString := sc.events.filterMap fun x => x.1.taggedString

theorem headerStrings_eq (sc : ParserScan) : sc.headerStrings = sc.strings.map HeaderString.text := by
  rw [headerStrings, headerStringsOf, strings, List.map_filterMap]
  refine List.filterMap_congr fun x _ => ?_
  cases x.1 <;> rfl

variable {sc sc' : ParserScan}

theorem Recased.strings (h : sc.Recased sc') :
    List.Forall₂ HeaderString.Recased sc.strings sc'.strings :=
  forall₂_filterMap h.events fun _ _ hxy => hxy.1.taggedString

theorem Recased.bodies (h : sc.Recased sc') : sc'.bodies = sc.bodies := by
  have hbodies : List.Forall₂ Eq sc.bodies sc'.bodies := by
    refine forall₂_filterMap h.events fun x y hxy => ?_
    obtain ⟨e, off⟩ := x
    obtain ⟨e', off'⟩ := y
    obtain ⟨hr, -⟩ := hxy
    cases hr with
    | refl e => cases e <;> constructor; rfl
    | name _ => constructor
  exact (List.forall₂_eq_eq_eq ▸ hbodies).symm

theorem exists_recased (sc : ParserScan) {ts : List HeaderString}
    (h : List.Forall₂ HeaderString.Recased sc.strings ts) :
    ∃ sc', sc.Recased sc' ∧ sc'.strings = ts := by
  have hkeep (x : ParserEvent × Nat) (_ : x.1.taggedString = none) : x.1.Recased x.1 ∧ x.2 = x.2 :=
    ⟨.refl x.1, rfl⟩
  have hrecase (x : ParserEvent × Nat) (s t : HeaderString) (hx : x.1.taggedString = some s)
      (hst : s.Recased t) : ∃ y : ParserEvent × Nat, (x.1.Recased y.1 ∧ x.2 = y.2) ∧
        y.1.taggedString = some t := by
    obtain ⟨e', he, ht⟩ := ParserEvent.exists_recased hx hst
    exact ⟨(e', x.2), ⟨he, rfl⟩, ht⟩
  obtain ⟨es', hes, hts⟩ := exists_forall₂_filterMap hkeep hrecase h
  exact ⟨{ sc with events := es' }, ⟨hes, rfl, rfl, rfl⟩, hts⟩

end ParserScan

/-- The strings two by two, as `SetHeader` gets them. -/
def stringPairs : List HeaderString → List (HeaderString × HeaderString)
  | x :: y :: ts => (x, y) :: stringPairs ts
  | _ => []

def pairText (p : HeaderString × HeaderString) : Bytes × Bytes := (p.1.text, p.2.text)

def PairRecased (p q : HeaderString × HeaderString) : Prop := p.1.Recased q.1 ∧ p.2.Recased q.2

theorem PairRecased.refl (p : HeaderString × HeaderString) : PairRecased p p :=
  ⟨.refl p.1, .refl p.2⟩

theorem headerPairs_map_text (ts : List HeaderString) :
    headerPairs (ts.map HeaderString.text) = (stringPairs ts).map pairText := by
  induction ts using stringPairs.induct with
  | case1 x y ts ih => exact congrArg (_ :: ·) ih
  | case2 ts hne =>
    rcases ts with _ | ⟨x, _ | ⟨y, ts⟩⟩
    · rfl
    · rfl
    · exact absurd rfl (hne x y ts)

theorem forall₂_stringPairs {ts us : List HeaderString}
    (h : List.Forall₂ HeaderString.Recased ts us) :
    List.Forall₂ PairRecased (stringPairs ts) (stringPairs us) := by
  induction ts using stringPairs.induct generalizing us with
  | case1 x y ts ih =>
    obtain ⟨x', us, hx, htail, rfl⟩ := List.forall₂_cons_left_iff.mp h
    obtain ⟨y', us, hy, hrest, rfl⟩ := List.forall₂_cons_left_iff.mp htail
    exact .cons ⟨hx, hy⟩ (ih hrest)
  | case2 ts hne =>
    rcases ts with _ | ⟨x, _ | ⟨y, ts⟩⟩
    · rw [List.forall₂_nil_left_iff.mp h]
      exact .nil
    · obtain ⟨x', us, -, htail, rfl⟩ := List.forall₂_cons_left_iff.mp h
      rw [List.forall₂_nil_left_iff.mp htail]
      exact .nil
    · exact absurd rfl (hne x y ts)

theorem exists_forall₂_stringPairs {ts : List HeaderString} (heven : ts.length % 2 = 0)
    {qs : List (HeaderString × HeaderString)} (h : List.Forall₂ PairRecased (stringPairs ts) qs) :
    ∃ us, List.Forall₂ HeaderString.Recased ts us ∧ stringPairs us = qs := by
  induction ts using stringPairs.induct generalizing qs with
  | case1 x y ts ih =>
    obtain ⟨q, qs, hq, htail, rfl⟩ := List.forall₂_cons_left_iff.mp h
    simp only [List.length_cons] at heven
    obtain ⟨us, hus, rfl⟩ := ih (by omega) htail
    exact ⟨q.1 :: q.2 :: us, .cons hq.1 (.cons hq.2 hus), rfl⟩
  | case2 ts hne =>
    rcases ts with _ | ⟨x, _ | ⟨y, ts⟩⟩
    · exact ⟨[], .nil, (List.forall₂_nil_left_iff.mp h).symm⟩
    · simp at heven
    · exact absurd rfl (hne x y ts)

end Tinyco
