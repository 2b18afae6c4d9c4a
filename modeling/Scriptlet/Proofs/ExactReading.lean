import Scriptlet.Proofs.Canonical

/-!
What a routine of the grammar reads, said exactly. A run is clean if it succeeds and records no
error. A routine is exact for a relation between results, the tokens read and the tokens left if
its clean runs are just those of the relation. Exact routines compose: a clean run of two routines
in a row is a clean run of each, because a recorded error is never taken back.
-/

namespace Scriptlet

/-- From one place of the input to another: tokens are only read, errors only recorded. -/
structure Cursor.Reaches (c d : Cursor) : Prop where
  ahead : d.ahead <:+ c.ahead
  finish : d.finish = c.finish
  errors : c.errors <+: d.errors

namespace Cursor.Reaches

theorem refl (c : Cursor) : c.Reaches c := ⟨List.suffix_refl _, rfl, List.prefix_refl _⟩

theorem trans {c d e : Cursor} (h : c.Reaches d) (k : d.Reaches e) : c.Reaches e :=
  ⟨k.ahead.trans h.ahead, k.finish.trans h.finish, h.errors.trans k.errors⟩

theorem read {c : Cursor} {rest : List Token} (h : rest <:+ c.ahead) :
    c.Reaches { c with ahead := rest } :=
  ⟨h, rfl, List.prefix_refl _⟩

theorem record (c : Cursor) (e : SyntaxError) : c.Reaches (c.record e) :=
  ⟨List.suffix_refl _, rfl, List.prefix_append _ _⟩

/-- A place between two others at which nothing had been recorded differs from the first by the
tokens that were read. -/
theorem between {c d : Cursor} {rest : List Token} (h : c.Reaches d)
    (k : d.Reaches { c with ahead := rest }) : d = { c with ahead := d.ahead } := by
  have he : d.errors = c.errors :=
    (List.IsPrefix.eq_of_length_le h.errors k.errors.length_le).symm
  cases d
  cases he
  cases h.finish
  rfl

end Cursor.Reaches

namespace Parse

variable {α β : Type}

def left (r : Parse α) (c : Cursor) : Cursor :=
  match r c with
  | .ok _ d => d
  | .error _ d => d

def Forward (r : Parse α) : Prop := ∀ c : Cursor, c.Reaches (r.left c)

theorem Forward.ok {r : Parse α} (h : Forward r) {c d : Cursor} {x : α} (e : r c = .ok x d) :
    c.Reaches d := by
  simpa [left, e] using h c

theorem Forward.error {r : Parse α} (h : Forward r) {c d : Cursor} {x : SyntaxError}
    (e : r c = .error x d) : c.Reaches d := by
  simpa [left, e] using h c

theorem forward_pure (x : α) : Forward (pure x) := fun c => .refl c

theorem forward_fail (complaint : Complaint) : Forward (fail complaint : Parse α) :=
  fun c => .refl c

theorem forward_lookahead : Forward lookahead := fun c => .refl c

theorem forward_upcoming : Forward upcoming := fun c => .refl c

theorem forward_record (e : SyntaxError) : Forward (record e) := fun c => .record c e

theorem forward_recordHere (complaint : Complaint) : Forward (recordHere complaint) :=
  fun c => .record c _

theorem forward_take : Forward take := by
  intro c
  unfold left take
  split <;> rename_i h <;> split at h <;> cases h
  · rename_i h
    exact .read (h ▸ List.suffix_cons _ _)
  · exact .refl c

theorem forward_accept (wanted : Kind → Bool) : Forward (accept wanted) := by
  intro c
  unfold left accept
  split <;> rename_i h <;> split at h
  · rename_i h'
    split at h <;> cases h
    · exact .read (h' ▸ List.suffix_cons _ _)
    · exact .refl c
  · cases h
    exact .refl c
  · split at h <;> cases h
  · cases h

theorem bind_ok (r : Parse α) (f : α → Parse β) {c d : Cursor} {x : α} (h : r c = .ok x d) :
    (r >>= f) c = f x d := by
  show EStateM.bind r f c = _
  simp [EStateM.bind, h]

theorem bind_error (r : Parse α) (f : α → Parse β) {c d : Cursor} {e : SyntaxError}
    (h : r c = .error e d) : (r >>= f) c = .error e d := by
  show EStateM.bind r f c = _
  simp [EStateM.bind, h]

theorem Forward.bind {r : Parse α} {f : α → Parse β} (hr : Forward r) (hf : ∀ x, Forward (f x)) :
    Forward (r >>= f) := by
  intro c
  cases h : r c with
  | ok x d =>
    have hd := hf x d
    rw [left, bind_ok r f h]
    exact (hr.ok h).trans hd
  | error e d =>
    rw [left, bind_error r f h]
    exact hr.error h

/-- A relation between a result, the tokens that were read for it and the tokens left. -/
abbrev Reading (α : Type) := α → List Token → List Token → Prop

/-- The clean runs of `r` from the places that `p` allows are those of `reads`. -/
structure Exact (p : List Token → Prop) (r : Parse α) (reads : Reading α) : Prop where
  forward : Forward r
  clean : ∀ (c : Cursor) (x : α) (rest : List Token), p c.ahead →
    (r c = .ok x { c with ahead := rest } ↔ ∃ read, c.ahead = read ++ rest ∧ reads x read rest)

def Then (P : Reading α) (Q : α → Reading β) : Reading β := fun y read rest =>
  ∃ x first second, read = first ++ second ∧ P x first (second ++ rest) ∧ Q x y second rest

abbrev Anywhere : List Token → Prop := fun _ => True

section Exact

variable {p m : List Token → Prop}

theorem Exact.congr {r : Parse α} {P Q : Reading α} (h : Exact p r P)
    (e : ∀ x read rest, p (read ++ rest) → (P x read rest ↔ Q x read rest)) : Exact p r Q where
  forward := h.forward
  clean := by
    intro c x rest hc
    rw [h.clean c x rest hc]
    constructor
    · rintro ⟨read, hr, hP⟩
      exact ⟨read, hr, (e x read rest (hr ▸ hc)).1 hP⟩
    · rintro ⟨read, hr, hQ⟩
      exact ⟨read, hr, (e x read rest (hr ▸ hc)).2 hQ⟩

theorem Exact.weaken {r : Parse α} {P : Reading α} (h : Exact m r P)
    (hp : ∀ ts, p ts → m ts) : Exact p r P where
  forward := h.forward
  clean c x rest hc := h.clean c x rest (hp _ hc)

theorem Exact.bind {r : Parse α} {f : α → Parse β} {P : Reading α} {Q : α → Reading β}
    {m : α → List Token → Prop} (hr : Exact p r P) (hf : ∀ x, Exact (m x) (f x) (Q x))
    (hm : ∀ x first rest, p (first ++ rest) → P x first rest → m x rest) :
    Exact p (r >>= f) (Then P Q) where
  forward := hr.forward.bind fun x => (hf x).forward
  clean := by
    intro c y rest hp
    constructor
    · intro h
      cases e : r c with
      | error err d =>
        rw [bind_error r f e] at h
        cases h
      | ok x d =>
        rw [bind_ok r f e] at h
        have hd := (hr.forward.ok e).between ((hf x).forward.ok h)
        generalize d.ahead = between at hd
        subst hd
        obtain ⟨first, hfirst, hP⟩ := (hr.clean c x between hp).1 e
        have hmid := hm x first between (hfirst ▸ hp) hP
        obtain ⟨second, rfl, hQ⟩ := ((hf x).clean _ y rest hmid).1 h
        exact ⟨first ++ second, by simp [hfirst], x, first, second, rfl, hP, hQ⟩
    · rintro ⟨_, hc, x, first, second, rfl, hP, hQ⟩
      rw [List.append_assoc] at hc
      have e := (hr.clean c x (second ++ rest) hp).2 ⟨first, hc, hP⟩
      rw [bind_ok r f e]
      exact ((hf x).clean _ y rest (hm x first _ (hc ▸ hp) hP)).2 ⟨second, rfl, hQ⟩

theorem Exact.andThen {r : Parse α} {f : α → Parse β} {P : Reading α} {Q : α → Reading β}
    (hr : Exact p r P) (hf : ∀ x, Exact Anywhere (f x) (Q x)) :
    Exact p (r >>= f) (Then P Q) :=
  hr.bind hf fun _ _ _ _ _ => trivial

theorem exact_pure (x : α) : Exact p (pure x) (fun y read _ => y = x ∧ read = []) where
  forward := forward_pure x
  clean := by
    rintro ⟨ahead, finish, errors⟩ y rest _
    constructor
    · intro h
      cases h
      exact ⟨[], rfl, rfl, rfl⟩
    · rintro ⟨read, h, rfl, rfl⟩
      cases h
      rfl

theorem exact_fail (complaint : Complaint) :
    Exact p (fail complaint : Parse α) (fun _ _ _ => False) where
  forward := forward_fail complaint
  clean := by
    intro c y rest _
    simp [fail]

/-- A run that records an error is never clean. -/
theorem exact_record (e : SyntaxError) : Exact p (record e) (fun _ _ _ => False) where
  forward := forward_record e
  clean := by
    intro c y rest _
    simp [record, Cursor.record]

theorem exact_recordHere (complaint : Complaint) :
    Exact p (recordHere complaint) (fun _ _ _ => False) where
  forward := forward_recordHere complaint
  clean := by
    intro c y rest _
    simp [recordHere, Cursor.record]

theorem exact_take : Exact (· ≠ []) take (fun t read _ => read = [t]) where
  forward := forward_take
  clean := by
    rintro ⟨ahead, finish, errors⟩ t rest hne
    obtain ⟨head, tail, rfl⟩ := List.exists_cons_of_ne_nil hne
    simp [take]

def Next (wanted : Kind → Bool) : List Token → Prop
  | t :: _ => wanted t.kind = true
  | [] => False

def Accepts (wanted : Kind → Bool) : Reading (Option Token) := fun o read rest =>
  match o with
  | some t => read = [t] ∧ wanted t.kind = true
  | none => read = [] ∧ ¬ Next wanted rest

theorem exact_accept (wanted : Kind → Bool) : Exact p (accept wanted) (Accepts wanted) where
  forward := forward_accept wanted
  clean := by
    rintro ⟨ahead, finish, errors⟩ o rest _
    cases ahead with
    | nil => cases o <;> simp +contextual [accept, Accepts, Next]
    | cons t tail =>
      by_cases h : wanted t.kind = true
      · cases o <;> simp [accept, Accepts, h]
        · rintro rfl
          exact h
        · rintro rfl _
          exact h
      · cases o <;> simp [accept, Accepts, h]
        · rintro rfl
          exact h
        · rintro rfl _
          simpa using h

/-- What is read fits slots that `R` allows for the result, and what is left is allowed by `S`. -/
def Shaped (R : α → List Slot → Prop) (S : α → List Token → Prop) : Reading α :=
  fun x read rest => (∃ slots, R x slots ∧ Fits slots read) ∧ S x rest

abbrev Unlimited : α → List Token → Prop := fun _ _ => True

theorem Exact.reshape {r : Parse α} {R R' : α → List Slot → Prop} {S : α → List Token → Prop}
    (h : Exact p r (Shaped R S)) (e : ∀ x slots, R x slots ↔ R' x slots) :
    Exact p r (Shaped R' S) := by
  have hR : R = R' := funext fun x => funext fun slots => propext (e x slots)
  exact hR ▸ h

/-- Two routines in a row. What the second reads and leaves may follow the first just if `G` holds
of the two results. -/
theorem Exact.seqIf {r : Parse α} {f : α → Parse β} {R : α → List Slot → Prop}
    {S : α → List Token → Prop} {R' : α → β → List Slot → Prop} {T : β → List Token → Prop}
    {G : α → β → Prop} (hr : Exact p r (Shaped R S))
    (hf : ∀ x, Exact Anywhere (f x) (Shaped (R' x) T))
    (follow : ∀ x y slots read rest, R' x y slots → Fits slots read → T y rest →
      (S x (read ++ rest) ↔ G x y)) :
    Exact p (r >>= f)
      (Shaped (fun y slots => ∃ x a b, slots = a ++ b ∧ R x a ∧ R' x y b ∧ G x y) T) := by
  refine (hr.andThen hf).congr ?_
  intro y read rest _
  constructor
  · rintro ⟨x, first, second, rfl, ⟨⟨a, ha, fa⟩, hS⟩, ⟨b, hb, fb⟩, hT⟩
    have hG := (follow x y b second rest hb fb hT).1 hS
    exact ⟨⟨a ++ b, ⟨x, a, b, rfl, ha, hb, hG⟩, fits_append.2 ⟨first, second, rfl, fa, fb⟩⟩, hT⟩
  · rintro ⟨⟨_, ⟨x, a, b, rfl, ha, hb, hG⟩, hfits⟩, hT⟩
    obtain ⟨first, second, rfl, fa, fb⟩ := fits_append.1 hfits
    have hS := (follow x y b second rest hb fb hT).2 hG
    exact ⟨x, first, second, rfl, ⟨⟨a, ha, fa⟩, hS⟩, ⟨b, hb, fb⟩, hT⟩

theorem Exact.seq {r : Parse α} {f : α → Parse β} {R : α → List Slot → Prop}
    {S : α → List Token → Prop} {R' : α → β → List Slot → Prop} {T : β → List Token → Prop}
    (hr : Exact p r (Shaped R S)) (hf : ∀ x, Exact Anywhere (f x) (Shaped (R' x) T))
    (follow : ∀ x y slots read rest, R' x y slots → Fits slots read → T y rest →
      S x (read ++ rest)) :
    Exact p (r >>= f)
      (Shaped (fun y slots => ∃ x a b, slots = a ++ b ∧ R x a ∧ R' x y b) T) := by
  refine (hr.seqIf (G := fun _ _ => True) hf fun x y slots read rest hb fb hT => ?_).reshape ?_
  · simp [follow x y slots read rest hb fb hT]
  · simp

theorem Exact.result {r : Parse α} {R : α → List Slot → Prop} {S : α → List Token → Prop}
    (h : Exact p r (Shaped R S)) (make : α → β) {T : β → List Token → Prop}
    (hS : ∀ x rest, S x rest ↔ T (make x) rest) :
    Exact p (r >>= fun x => pure (make x))
      (Shaped (fun y slots => ∃ x, y = make x ∧ R x slots) T) := by
  refine (h.andThen fun x => exact_pure (make x)).congr ?_
  intro y read rest _
  constructor
  · rintro ⟨x, first, _, rfl, ⟨⟨slots, hR, hf⟩, hs⟩, rfl, rfl⟩
    exact ⟨⟨slots, ⟨x, rfl, hR⟩, by simpa using hf⟩, (hS x rest).1 (by simpa using hs)⟩
  · rintro ⟨⟨slots, ⟨x, rfl, hR⟩, hf⟩, hs⟩
    exact ⟨x, read, [], by simp, ⟨⟨slots, hR, hf⟩, (hS x rest).2 hs⟩, rfl, rfl⟩

theorem exact_pure_shaped (x : α) :
    Exact p (pure x) (Shaped (fun y slots => y = x ∧ slots = []) Unlimited) := by
  refine (exact_pure x).congr ?_
  intro y read rest _
  simp [Shaped]

theorem exact_never {r : Parse α} {R : α → List Slot → Prop} {S : α → List Token → Prop}
    (h : Exact p r (fun _ _ _ => False)) (hR : ∀ x slots, ¬ R x slots) :
    Exact p r (Shaped R S) := by
  refine h.congr ?_
  intro x read rest _
  simp [Shaped, hR]

def headKind : List Token → Kind
  | t :: _ => t.kind
  | [] => .endOfInput

theorem exact_take_kind (kind : Kind) (h : kind ≠ .endOfInput) :
    Exact (headKind · = kind) take
      (Shaped (fun t slots => t.kind = kind ∧ slots = [.token t]) Unlimited) := by
  refine (exact_take.weaken ?_).congr ?_
  · rintro ts hk rfl
    exact h hk.symm
  · intro t read rest hk
    constructor
    · rintro rfl
      exact ⟨⟨_, ⟨hk, rfl⟩, fits_singleton.2 ⟨t, rfl, rfl⟩⟩, trivial⟩
    · rintro ⟨⟨_, ⟨_, rfl⟩, hf⟩, _⟩
      obtain ⟨u, rfl, rfl⟩ := fits_singleton.1 hf
      rfl

theorem exact_expect (kind : Kind) (complaint : Complaint) :
    Exact p (expect kind complaint)
      (Shaped (fun t slots => t.kind = kind ∧ slots = [.token t]) Unlimited) := by
  unfold expect
  refine ((exact_accept (p := p) (· = kind)).andThen
    (Q := fun o y read _ => o = some y ∧ read = []) ?_).congr ?_
  · rintro (_ | t)
    · exact (exact_fail complaint).congr (by simp)
    · exact (exact_pure t).congr (by simp [eq_comm])
  · intro t read rest _
    constructor
    · rintro ⟨o, first, _, rfl, ho, rfl, rfl⟩
      obtain ⟨rfl, hk⟩ := ho
      exact ⟨⟨_, ⟨by simpa using hk, rfl⟩, fits_singleton.2 ⟨t, by simp, rfl⟩⟩, trivial⟩
    · rintro ⟨⟨_, ⟨hk, rfl⟩, hf⟩, _⟩
      obtain ⟨u, rfl, rfl⟩ := fits_singleton.1 hf
      exact ⟨some u, [u], [], by simp, ⟨rfl, by simpa using hk⟩, rfl, rfl⟩

theorem discard_eq_bind (r : Parse α) : discard r = r >>= fun _ => pure () := by
  funext c
  show EStateM.map _ r c = EStateM.bind r _ c
  unfold EStateM.map EStateM.bind
  cases r c <;> rfl

theorem map_eq_bind (f : α → β) (r : Parse α) : f <$> r = r >>= fun x => pure (f x) := by
  funext c
  show EStateM.map f r c = EStateM.bind r _ c
  unfold EStateM.map EStateM.bind
  cases r c <;> rfl

theorem Exact.forget {r : Parse Token} {kind : Kind}
    (h : Exact p r (Shaped (fun t slots => t.kind = kind ∧ slots = [.token t]) Unlimited)) :
    Exact p (discard r) (Shaped (fun _ slots => slots = [.kind kind]) Unlimited) := by
  rw [discard_eq_bind]
  refine (h.result (fun _ => ()) (T := Unlimited) (by simp)).congr ?_
  intro _ read rest _
  constructor
  · rintro ⟨⟨_, ⟨t, _, hk, rfl⟩, hf⟩, _⟩
    obtain ⟨u, rfl, rfl⟩ := fits_singleton.1 hf
    exact ⟨⟨_, rfl, fits_singleton.2 ⟨u, rfl, hk⟩⟩, trivial⟩
  · rintro ⟨⟨_, rfl, hf⟩, _⟩
    obtain ⟨u, rfl, hk⟩ := fits_singleton.1 hf
    exact ⟨⟨_, ⟨u, rfl, hk, rfl⟩, fits_singleton.2 ⟨u, rfl, rfl⟩⟩, trivial⟩

theorem Exact.look {f : Kind → Parse α} {Q : Reading α}
    (hf : ∀ kind, Exact (fun ts => p ts ∧ headKind ts = kind) (f kind) Q) :
    Exact p (lookahead >>= f) Q where
  forward := forward_lookahead.bind fun kind => (hf kind).forward
  clean := by
    intro c x rest hp
    rw [bind_ok lookahead f (x := headKind c.ahead) (d := c)]
    · exact (hf _).clean c x rest ⟨hp, rfl⟩
    · unfold lookahead Cursor.kind headKind
      cases c.ahead <;> rfl

theorem Exact.ahead {f : List Token → Parse α} {Q : Reading α}
    (hf : ∀ ts, Exact (fun us => p us ∧ us = ts) (f ts) Q) : Exact p (upcoming >>= f) Q where
  forward := forward_upcoming.bind fun ts => (hf ts).forward
  clean := by
    intro c x rest hp
    rw [bind_ok upcoming f (x := c.ahead) (d := c) rfl]
    exact (hf _).clean c x rest ⟨hp, rfl⟩

theorem exact_listItem (tooMany : Complaint) {item : Parse α} {R : α → List Slot → Prop}
    {S : α → List Token → Prop} (h : Exact p item (Shaped R S)) (count : Nat) :
    Exact p (listItem tooMany item count)
      (Shaped (fun x slots => count < listLimit ∧ R x slots) S) := by
  unfold listItem
  by_cases hc : listLimit ≤ count
  · simp only [hc, if_true]
    refine exact_never (((exact_recordHere tooMany).bind (fun _ => h) (by simp)).congr ?_) ?_
    · simp [Then]
    · rintro x slots ⟨hlt, _⟩
      omega
  · simp only [hc, if_false]
    exact h.reshape (by simp [Nat.lt_of_not_le hc])

/-- One or more items with commas between them, after `count` others. -/
def Listing (R : α → List Slot → Prop) (S : List Token → Prop) (count : Nat) : Reading (List α) :=
  Shaped (fun xs slots => xs ≠ [] ∧ count + xs.length ≤ listLimit ∧
      ∃ rows, List.Forall₂ R xs rows ∧ slots = Slot.separated rows)
    (fun _ rest => S rest ∧ ¬ Next (· = .comma) rest)

def Listing.Tail (R : α → List Slot → Prop) (S : List Token → Prop) (count : Nat) (x : α) :
    Reading (List α) := fun ys read rest =>
  (ys = [x] ∧ read = [] ∧ ¬ Next (· = .comma) rest) ∨
    ∃ u second xs, read = u :: second ∧ u.kind = .comma ∧ ys = x :: xs ∧
      Listing R S (count + 1) xs second rest

variable {R : α → List Slot → Prop} {S : List Token → Prop}

theorem listing_of_tail {count : Nat} {x : α} {ys : List α} {slots : List Slot}
    {first second rest : List Token} (hc : count < listLimit) (hR : R x slots)
    (hf : Fits slots first) (hS : S (second ++ rest))
    (h : Listing.Tail R S count x ys second rest) :
    Listing R S count ys (first ++ second) rest := by
  rcases h with ⟨rfl, rfl, hn⟩ | ⟨u, third, xs, rfl, hk, rfl, ⟨_, hxs, hfs⟩, hT⟩
  · exact ⟨⟨slots, ⟨by simp, hc, [slots], .cons hR .nil, by simp⟩, by simpa using hf⟩, hS, hn⟩
  · obtain ⟨hne, hlen, rows, hrows, rfl⟩ := hxs
    refine ⟨⟨_, ⟨by simp, ?_, slots :: rows, .cons hR hrows, rfl⟩, ?_⟩, hT⟩
    · simp only [List.length_cons]
      omega
    · cases hrows with
      | nil => exact absurd rfl hne
      | cons _ _ =>
        rw [separated_cons_cons]
        exact fits_append.2 ⟨first, u :: third, rfl, hf, fits_cons.2 ⟨u, third, rfl, hk, hfs⟩⟩

theorem tail_of_listing (comma : ∀ t rest, t.kind = .comma → S (t :: rest)) {count : Nat}
    {ys : List α} {read rest : List Token} (h : Listing R S count ys read rest) :
    ∃ x slots first second, read = first ++ second ∧ count < listLimit ∧ R x slots ∧
      Fits slots first ∧ S (second ++ rest) ∧ Listing.Tail R S count x ys second rest := by
  obtain ⟨⟨_, ⟨hne, hlen, rows, hrows, rfl⟩, hf⟩, hS, hn⟩ := h
  cases hrows with
  | nil => exact absurd rfl hne
  | @cons x row xs rows hR hrows =>
    simp only [List.length_cons] at hlen
    cases hrows with
    | nil =>
      exact ⟨x, row, read, [], by simp, by omega, hR, by simpa using hf, hS, .inl ⟨rfl, rfl, hn⟩⟩
    | @cons y next xs rows hR' hrows =>
      simp only [List.length_cons] at hlen
      rw [separated_cons_cons] at hf
      obtain ⟨first, _, rfl, hrow, hf⟩ := fits_append.1 hf
      obtain ⟨u, second, rfl, hk, hf⟩ := fits_cons.1 hf
      refine ⟨x, row, first, u :: second, rfl, by omega, hR, hrow, comma _ _ hk, .inr ?_⟩
      refine ⟨u, second, y :: xs, rfl, hk, rfl, ⟨_, ⟨by simp, ?_, next :: rows, ?_, rfl⟩, hf⟩, hS,
        hn⟩
      · simp only [List.length_cons]
        omega
      · exact .cons hR' hrows

variable {item : Parse α}

theorem exact_afterItem {limit count : Nat} {more : Parse (List α)}
    (h : Exact (·.length ≤ limit) more (Listing R S (count + 1))) (x : α) :
    Exact (·.length ≤ limit)
      (accept (· = .comma) >>= fun o => match o with
        | some _ => more >>= fun xs => pure (x :: xs)
        | none => pure [x])
      (Listing.Tail R S count x) := by
  refine ((exact_accept (p := (·.length ≤ limit)) (· = .comma)).bind
    (m := fun _ => (·.length ≤ limit))
    (Q := fun o ys read rest => match o with
      | some _ => Then (Listing R S (count + 1)) (fun xs ys read _ => ys = x :: xs ∧ read = [])
          ys read rest
      | none => ys = [x] ∧ read = []) ?_ ?_).congr ?_
  · rintro (_ | u)
    · exact exact_pure [x]
    · exact h.andThen fun xs => exact_pure (x :: xs)
  · intro o first rest hlen _
    simp only [List.length_append] at hlen
    omega
  · intro ys read rest _
    constructor
    · rintro ⟨_ | u, first, second, rfl, ho, hQ⟩
      · obtain ⟨rfl, hn⟩ := ho
        obtain ⟨rfl, rfl⟩ := hQ
        exact .inl ⟨rfl, rfl, hn⟩
      · obtain ⟨rfl, hk⟩ := ho
        obtain ⟨xs, second, _, rfl, hxs, rfl, rfl⟩ := hQ
        exact .inr ⟨u, second, xs, by simp, by simpa using hk, rfl, by simpa using hxs⟩
    · rintro (⟨rfl, rfl, hn⟩ | ⟨u, second, xs, rfl, hk, rfl, hxs⟩)
      · exact ⟨none, [], [], rfl, ⟨rfl, hn⟩, rfl, rfl⟩
      · exact ⟨some u, [u], second, rfl, ⟨rfl, by simpa using hk⟩,
          xs, second, [], by simp, by simpa using hxs, rfl, rfl⟩

/-- The rounds of the loop never run out before the tokens do. -/
theorem exact_commaSeparated (tooMany : Complaint)
    (hitem : Exact Anywhere item (Shaped R fun _ => S))
    (nonempty : ∀ x slots, R x slots → ¬ Fits slots [])
    (comma : ∀ t rest, t.kind = .comma → S (t :: rest)) (rounds : List Token) (count : Nat) :
    Exact (·.length ≤ rounds.length) (commaSeparated tooMany item rounds count)
      (Listing R S count) := by
  induction rounds generalizing count with
  | nil =>
    have h := (exact_listItem tooMany hitem count).result (fun x => [x])
      (T := fun _ => S) (by simp)
    refine (h.weaken (p := (·.length ≤ 0)) (by simp)).congr ?_
    intro xs read rest hlen
    obtain ⟨rfl, rfl⟩ : read = [] ∧ rest = [] := by simpa using hlen
    constructor
    · rintro ⟨⟨slots, ⟨x, _, _, hR⟩, hf⟩, _⟩
      exact absurd hf (nonempty x slots hR)
    · intro h
      obtain ⟨x, slots, first, second, he, _, hR, hf, _⟩ := tail_of_listing comma h
      obtain ⟨rfl, rfl⟩ := List.append_eq_nil_iff.1 he.symm
      exact absurd hf (nonempty x slots hR)
  | cons t rounds ih =>
    unfold commaSeparated
    refine (((exact_listItem tooMany hitem count).weaken
      (p := (·.length ≤ rounds.length + 1)) fun _ _ => trivial).bind
      (exact_afterItem (ih (count + 1))) ?_).congr ?_
    · rintro x first rest hlen ⟨⟨slots, ⟨_, hR⟩, hf⟩, _⟩
      cases first with
      | nil => exact absurd hf (nonempty x slots hR)
      | cons u first =>
        simp only [List.cons_append, List.length_cons, List.length_append] at hlen
        omega
    · intro ys read rest _
      constructor
      · rintro ⟨x, first, second, rfl, ⟨⟨slots, ⟨hc, hR⟩, hf⟩, hS⟩, h⟩
        exact listing_of_tail hc hR hf hS h
      · intro h
        obtain ⟨x, slots, first, second, rfl, hc, hR, hf, hS, h⟩ := tail_of_listing comma h
        exact ⟨x, first, second, rfl, ⟨⟨slots, ⟨hc, hR⟩, hf⟩, hS⟩, h⟩

theorem exact_listed (tooMany : Complaint) (hitem : Exact Anywhere item (Shaped R fun _ => S))
    (opens : ∀ x slots, R x slots → ∀ ts, Fits slots ts → headKind ts ≠ .rightParen ∧ ts ≠ [])
    (comma : ∀ t rest, t.kind = .comma → S (t :: rest)) :
    Exact Anywhere (listed tooMany item)
      (Shaped (fun xs slots => xs.length ≤ listLimit ∧
          ∃ rows, List.Forall₂ R xs rows ∧ slots = Slot.separated rows)
        (fun xs rest => if xs = [] then headKind rest = .rightParen
          else S rest ∧ ¬ Next (· = .comma) rest)) := by
  unfold listed
  refine Exact.look fun kind => ?_
  by_cases hk : kind = .rightParen
  · simp only [hk, if_true]
    refine (exact_pure []).congr ?_
    rintro xs read rest ⟨_, hhead⟩
    constructor
    · rintro ⟨rfl, rfl⟩
      exact ⟨⟨[], ⟨by simp, [], .nil, rfl⟩, by simp⟩, by simpa using hhead⟩
    · rintro ⟨⟨_, ⟨_, rows, hrows, rfl⟩, hf⟩, hS⟩
      cases hrows with
      | nil => exact ⟨rfl, by simpa [Slot.separated] using hf⟩
      | @cons x row xs rows hR hrows =>
        exfalso
        obtain ⟨first, second, rfl, hrow⟩ :
            ∃ first second, read = first ++ second ∧ Fits row first := by
          cases hrows with
          | nil => exact ⟨read, [], by simp, by simpa using hf⟩
          | cons _ _ =>
            rw [separated_cons_cons] at hf
            obtain ⟨first, second, rfl, hrow, _⟩ := fits_append.1 hf
            exact ⟨first, second, rfl, hrow⟩
        obtain ⟨hne, hcons⟩ := opens x row hR first hrow
        cases first with
        | nil => exact hcons rfl
        | cons u first => exact hne hhead
  · simp only [hk, if_false]
    refine Exact.ahead fun ts => ?_
    have h := exact_commaSeparated tooMany hitem
      (fun x slots hR hf => (opens x slots hR [] hf).2 rfl) comma ts 0
    refine (h.weaken (by rintro us ⟨_, rfl⟩; exact Nat.le_refl _)).congr ?_
    rintro xs read rest ⟨⟨_, hhead⟩, _⟩
    constructor
    · rintro ⟨⟨slots, ⟨hne, hlen, hrows⟩, hf⟩, hS⟩
      exact ⟨⟨slots, ⟨by simpa using hlen, hrows⟩, hf⟩, by simpa [hne] using hS⟩
    · rintro ⟨⟨slots, ⟨hlen, hrows⟩, hf⟩, hS⟩
      by_cases hne : xs = []
      · subst hne
        obtain ⟨rows, hrows, rfl⟩ := hrows
        cases hrows
        simp only [if_true] at hS
        obtain rfl : read = [] := by simpa [Slot.separated] using hf
        exact absurd (hhead.symm.trans hS) hk
      · rw [if_neg hne] at hS
        exact ⟨⟨slots, ⟨hne, by simpa using hlen, hrows⟩, hf⟩, hS⟩

theorem skipFrom_suffix (last : Token) (ts : List Token) : skipFrom last ts <:+ ts := by
  induction ts generalizing last with
  | nil => exact List.suffix_refl _
  | cons t rest ih =>
    unfold skipFrom
    split
    · exact List.suffix_refl _
    · exact (ih t).trans (List.suffix_cons _ _)

theorem skip_suffix (ts : List Token) : skip ts <:+ ts := by
  cases ts with
  | nil => exact List.suffix_refl _
  | cons t rest => exact (skipFrom_suffix t rest).trans (List.suffix_cons _ _)

theorem skipInBlock_suffix (ts : List Token) : skipInBlock ts <:+ ts := by
  induction ts with
  | nil => exact List.suffix_refl _
  | cons t rest ih =>
    unfold skipInBlock
    split
    · exact List.suffix_refl _
    · split
      · exact List.suffix_cons _ _
      · exact ih.trans (List.suffix_cons _ _)

/-- A run that recovers from an error has recorded it, so it is not clean. -/
theorem Exact.recovering {item : Parse α} {Q : Reading α} (h : Exact p item Q)
    {skipping : List Token → List Token} (hs : ∀ ts, skipping ts <:+ ts) :
    Exact p (recovering item skipping)
      (fun o read rest => ∃ x, o = some x ∧ Q x read rest) where
  forward := by
    intro c
    unfold left Parse.recovering
    cases e : item c with
    | ok x d => exact h.forward.ok e
    | error err d =>
      have hd : d.Reaches { d.record err with ahead := skipping d.ahead } :=
        (Cursor.Reaches.record d err).trans (.read (hs _))
      exact (h.forward.error e).trans hd
  clean := by
    intro c o rest hc
    unfold Parse.recovering
    cases e : item c with
    | ok x d =>
      constructor
      · intro he
        cases he
        obtain ⟨read, hr, hQ⟩ := (h.clean c x rest hc).1 e
        exact ⟨read, hr, x, rfl, hQ⟩
      · rintro ⟨read, hr, y, rfl, hQ⟩
        have := (h.clean c y rest hc).2 ⟨read, hr, hQ⟩
        rw [e] at this
        cases this
        rfl
    | error err d =>
      constructor
      · intro he
        have hlen := (h.forward.error e).errors.length_le
        have : (d.errors ++ [err]).length = c.errors.length := by
          injection he with _ he
          exact congrArg (·.errors.length) he
        simp at this
        omega
      · rintro ⟨read, hr, y, rfl, hQ⟩
        have := (h.clean c y rest hc).2 ⟨read, hr, hQ⟩
        rw [e] at this
        cases this

def Items (stop : Kind → Bool) (R : α → List Slot → Prop) : Reading (List α) :=
  Shaped (fun xs slots => ∃ rows, List.Forall₂ R xs rows ∧ slots = rows.flatten)
    (fun _ rest => stop (headKind rest) = true)

/-- No item begins with a kind that stops items, and any item may follow any other. -/
def Opens (stop : Kind → Bool) (R : α → List Slot → Prop) (F : α → List Token → Prop) : Prop :=
  ∀ x slots, R x slots → ∀ ts, Fits slots ts → ∃ t more, ts = t :: more ∧ stop t.kind = false ∧
    ∀ y rest, F y (t :: rest)

section Items

variable {stop : Kind → Bool} {F : α → List Token → Prop}

theorem items_nil {rest : List Token} (h : stop (headKind rest) = true) :
    Items stop R [] [] rest :=
  ⟨⟨[], ⟨[], .nil, rfl⟩, by simp⟩, h⟩

theorem items_at_stop (opens : Opens stop R F) {xs : List α} {read rest : List Token}
    (h : Items stop R xs read rest) (hstop : stop (headKind (read ++ rest)) = true) :
    xs = [] ∧ read = [] := by
  obtain ⟨⟨_, ⟨rows, hrows, rfl⟩, hf⟩, _⟩ := h
  cases hrows with
  | nil => exact ⟨rfl, by simpa using hf⟩
  | @cons x row xs rows hR _ =>
    obtain ⟨first, second, rfl, hf, _⟩ := fits_append.1 (by simpa using hf)
    obtain ⟨t, more, rfl, ht, _⟩ := opens x row hR first hf
    change stop t.kind = true at hstop
    rw [ht] at hstop
    cases hstop

theorem items_cons {x : α} {xs : List α} {row : List Slot} {first second rest : List Token}
    (hR : R x row) (hf : Fits row first) (h : Items stop R xs second rest) :
    Items stop R (x :: xs) (first ++ second) rest := by
  obtain ⟨⟨_, ⟨rows, hrows, rfl⟩, hfs⟩, hstop⟩ := h
  have hfit : Fits (row ++ rows.flatten) (first ++ second) :=
    fits_append.2 ⟨first, second, rfl, hf, hfs⟩
  exact ⟨⟨_, ⟨row :: rows, .cons hR hrows, rfl⟩, hfit⟩, hstop⟩

theorem follow_items (opens : Opens stop R F) {xs : List α} {rows : List (List Slot)}
    (hrows : List.Forall₂ R xs rows) {read rest : List Token} (hf : Fits rows.flatten read)
    {x : α} (hrest : F x rest) : F x (read ++ rest) := by
  cases hrows with
  | nil =>
    obtain rfl : read = [] := by simpa using hf
    exact hrest
  | @cons y row _ _ hR _ =>
    obtain ⟨first, second, rfl, hfirst, _⟩ := fits_append.1 (by simpa using hf)
    obtain ⟨t, more, rfl, _, hF⟩ := opens y row hR first hfirst
    exact hF x _

theorem items_uncons (opens : Opens stop R F)
    (last : ∀ x rest, stop (headKind rest) = true → F x rest) {ys : List α}
    {read rest : List Token} (h : Items stop R ys read rest) (hne : ys ≠ []) :
    ∃ x xs row first second, ys = x :: xs ∧ read = first ++ second ∧ R x row ∧ Fits row first ∧
      F x (second ++ rest) ∧ Items stop R xs second rest := by
  obtain ⟨⟨_, ⟨rows, hrows, rfl⟩, hf⟩, hstop⟩ := h
  cases hrows with
  | nil => exact absurd rfl hne
  | @cons x row xs rows hR hrows =>
    obtain ⟨first, second, rfl, hf, hfs⟩ := fits_append.1 (by simpa using hf)
    exact ⟨x, xs, row, first, second, rfl, rfl, hR, hf,
      follow_items opens hrows hfs (last x rest hstop), ⟨_, ⟨rows, hrows, rfl⟩, hfs⟩, hstop⟩

/-- Each round reads an item, so the rounds never run out before the tokens do. -/
theorem exact_itemsUntil (stop : Kind → Bool) {skipping : List Token → List Token}
    (hitem : Exact Anywhere item (Shaped R F)) (hs : ∀ ts, skipping ts <:+ ts)
    (hend : stop .endOfInput = true) (opens : Opens stop R F)
    (last : ∀ x rest, stop (headKind rest) = true → F x rest) (rounds : List Token) :
    Exact (·.length ≤ rounds.length) (itemsUntil stop item skipping rounds) (Items stop R) := by
  induction rounds with
  | nil =>
    refine ((exact_pure []).weaken (m := (·.length ≤ 0)) fun _ h => h).congr ?_
    intro xs read rest hlen
    obtain ⟨rfl, rfl⟩ : read = [] ∧ rest = [] := by simpa using hlen
    constructor
    · rintro ⟨rfl, _⟩
      exact items_nil hend
    · intro h
      exact items_at_stop opens h hend
  | cons t rounds ih =>
    unfold itemsUntil
    refine Exact.look fun kind => ?_
    by_cases hk : stop kind = true
    · simp only [hk, if_true]
      refine (exact_pure []).congr ?_
      rintro xs read rest ⟨_, rfl⟩
      constructor
      · rintro ⟨rfl, rfl⟩
        exact items_nil hk
      · intro h
        exact items_at_stop opens h hk
    · simp only [hk]
      refine ((((hitem.weaken fun _ _ => trivial).recovering hs).bind
        (m := fun _ => (·.length ≤ rounds.length))
        (Q := fun o => Then (Items stop R) fun xs ys read _ => ys = o.toList ++ xs ∧ read = [])
        ?_ ?_).congr ?_)
      · intro o
        exact ih.andThen fun xs => exact_pure (o.toList ++ xs)
      · rintro o first rest ⟨hlen, _⟩ ⟨x, rfl, ⟨slots, hR, hf⟩, _⟩
        obtain ⟨u, more, rfl, _⟩ := opens x slots hR first hf
        simp only [List.length_append, List.length_cons] at hlen
        omega
      · rintro ys read rest ⟨_, rfl⟩
        constructor
        · rintro ⟨_, first, _, rfl, ⟨x, rfl, ⟨row, hR, hf⟩, _⟩, xs, second, _, rfl, hxs, rfl, rfl⟩
          simpa using items_cons hR hf hxs
        · intro h
          have hne : ys ≠ [] := by
            rintro rfl
            obtain ⟨⟨_, ⟨_, hrows, rfl⟩, hf⟩, hstop⟩ := h
            cases hrows
            obtain rfl : read = [] := by simpa using hf
            exact hk hstop
          obtain ⟨x, xs, row, first, second, rfl, rfl, hR, hf, hF, hxs⟩ :=
            items_uncons opens last h hne
          exact ⟨some x, first, second, rfl, ⟨x, rfl, ⟨row, hR, hf⟩, hF⟩,
            xs, second, [], by simp, by simpa using hxs, rfl, rfl⟩

end Items

end Exact

end Parse

end Scriptlet
