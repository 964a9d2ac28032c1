import Mathlib.Data.List.Basic
import Mathlib.Data.List.Nodup
import Mathlib.Logic.Function.Basic

/-!
# Intrusive rings around a sentinel

A ring is threaded through the `next` and `prev` words of its members, the
sentinel included. Members are arbitrary; a list of them names the ring in
forward order. Insertion at the front and unlinking are written as the word
updates they are, and refine the corresponding list operations.
-/

set_option autoImplicit false

namespace FaultCache.SentinelRing

variable {α : Type*}

inductive Ref (α : Type*) where
  | null
  | head
  | node (a : α)
  deriving DecidableEq, Repr

structure Links (α : Type*) where
  next : Ref α → Ref α
  prev : Ref α → Ref α

/-- The empty ring: both words of the sentinel point back at it. -/
def Links.empty : Links α where
  next r := if r matches .head then .head else .null
  prev r := if r matches .head then .head else .null

/-- Null words for the nodes that `fresh` picks. -/
def Links.clear (l : Links α) (fresh : α → Bool) : Links α where
  next
    | .node a => if fresh a then .null else l.next (.node a)
    | r => l.next r
  prev
    | .node a => if fresh a then .null else l.prev (.node a)
    | r => l.prev r

def lastRef : List α → Ref α
  | [] => .head
  | [x] => .node x
  | _::y::ys => lastRef (y::ys)

def firstRef : List α → Ref α
  | [] => .head
  | x::_ => .node x

@[simp] theorem lastRef_nil : lastRef ([] : List α) = .head := rfl
@[simp] theorem firstRef_nil : firstRef ([] : List α) = .head := rfl
@[simp] theorem firstRef_cons (x : α) (xs : List α) : firstRef (x::xs) = .node x := rfl

theorem lastRef_cons (x : α) (xs : List α) (h : xs ≠ []) : lastRef (x::xs) = lastRef xs := by
  cases xs with
  | nil => exact absurd rfl h
  | cons y ys => rfl

@[simp] theorem lastRef_concat (xs : List α) (x : α) : lastRef (xs ++ [x]) = .node x := by
  induction xs with
  | nil => rfl
  | cons y ys ih => rw [List.cons_append,lastRef_cons _ _ (by simp),ih]

theorem lastRef_eq_head {xs : List α} : lastRef xs = .head ↔ xs = [] := by
  rcases List.eq_nil_or_concat xs with rfl | ⟨ys,y,rfl⟩ <;> simp

def refs (xs : List α) : List (Ref α) := xs.map .node

@[simp] theorem mem_refs {xs : List α} {x : α} : Ref.node x ∈ refs xs ↔ x ∈ xs := by
  simp [refs]

@[simp] theorem head_not_refs {xs : List α} : Ref.head ∉ refs xs := by
  simp [refs]

theorem refs_nodup {xs : List α} (h : xs.Nodup) : (refs xs).Nodup :=
  h.map (fun _ _ he => Ref.node.inj he)

theorem head_refs_concat (xs : List α) : ∃ rs, .head::refs xs = rs ++ [lastRef xs] := by
  rcases List.eq_nil_or_concat xs with rfl | ⟨ys,y,rfl⟩
  · exact ⟨[],rfl⟩
  · exact ⟨.head::refs ys,by simp [refs]⟩

theorem refs_head_cons (xs : List α) : ∃ rs, refs xs ++ [.head] = firstRef xs::rs := by
  cases xs with
  | nil => exact ⟨[],rfl⟩
  | cons x xs => exact ⟨refs xs ++ [.head],rfl⟩

/-- Consecutive references point at each other in both directions. -/
def Linked (l : Links α) : List (Ref α) → Prop
  | x::y::rest => l.next x = y ∧ l.prev y = x ∧ Linked l (y::rest)
  | _ => True

theorem linked_append (l : Links α) (xs : List (Ref α)) (x : Ref α) (ys : List (Ref α)) :
    Linked l (xs ++ x::ys) ↔ Linked l (xs ++ [x]) ∧ Linked l (x::ys) := by
  induction xs with
  | nil => simp [Linked]
  | cons a xs ih =>
    cases xs with
    | nil => simp [Linked,and_assoc]
    | cons b xs =>
      simp only [List.cons_append,Linked] at ih ⊢
      rw [ih]
      tauto

/-- A chain reads `next` except at its end and `prev` except at its start. -/
theorem linked_congr {l m : Links α} {rs : List (Ref α)} (h : Linked l rs)
    (hn : ∀ r ∈ rs.dropLast, m.next r = l.next r)
    (hp : ∀ r ∈ rs.tail, m.prev r = l.prev r) : Linked m rs := by
  induction rs with
  | nil => trivial
  | cons a rs ih =>
    cases rs with
    | nil => trivial
    | cons b rs =>
      obtain ⟨h1,h2,h3⟩ := h
      refine ⟨(hn a (by simp)).trans h1,(hp b (by simp)).trans h2,?_⟩
      apply ih h3
      · intro r hr
        exact hn r (by simp only [List.dropLast_cons_cons]; exact List.mem_cons_of_mem _ hr)
      · intro r hr
        exact hp r (List.mem_of_mem_tail hr)

structure Ring (l : Links α) (xs : List α) : Prop where
  linked : Linked l (.head::refs xs ++ [.head])
  nodup : xs.Nodup

theorem ring_empty : Ring (Links.empty : Links α) [] :=
  ⟨⟨rfl,rfl,trivial⟩,List.nodup_nil⟩

/-- Nodes outside the ring can be written freely. -/
theorem ring_clear {l : Links α} {xs : List α} {fresh : α → Bool} (h : Ring l xs)
    (hf : ∀ x ∈ xs, fresh x = false) : Ring (l.clear fresh) xs := by
  have hsame : ∀ r ∈ .head::refs xs ++ [.head],
      (l.clear fresh).next r = l.next r ∧ (l.clear fresh).prev r = l.prev r := by
    intro r hr
    cases r with
    | null => simp [refs] at hr
    | head => exact ⟨rfl,rfl⟩
    | node a =>
      have ha : a ∈ xs := by simpa [refs] using hr
      simp [Links.clear,hf a ha]
  exact ⟨linked_congr h.linked (fun r hr => (hsame r (List.dropLast_subset _ hr)).1)
    (fun r hr => (hsame r (List.mem_of_mem_tail hr)).2),h.nodup⟩

theorem ring_next_head {l : Links α} {xs : List α} (h : Ring l xs) :
    l.next .head = firstRef xs := by
  obtain ⟨rs,hrs⟩ := refs_head_cons xs
  have hl := h.linked
  rw [List.cons_append,hrs] at hl
  exact hl.1

theorem ring_prev_head {l : Links α} {xs : List α} (h : Ring l xs) :
    l.prev .head = lastRef xs := by
  obtain ⟨rs,hrs⟩ := head_refs_concat xs
  have hl := h.linked
  rw [hrs,List.append_assoc,List.singleton_append,linked_append] at hl
  exact hl.2.2.1

/-- The two chains on either side of a member. -/
theorem ring_split {l : Links α} {xs ys : List α} {x : α} (h : Ring l (xs ++ x::ys)) :
    Linked l (.head::refs xs ++ [.node x]) ∧ Linked l (.node x::(refs ys ++ [.head])) := by
  have hl := h.linked
  rw [refs,List.map_append,List.map_cons] at hl
  rw [← linked_append]
  simpa [refs] using hl

theorem ring_prev_node {l : Links α} {xs ys : List α} {x : α} (h : Ring l (xs ++ x::ys)) :
    l.prev (.node x) = lastRef xs ∧ l.next (lastRef xs) = .node x := by
  obtain ⟨rs,hrs⟩ := head_refs_concat xs
  have hl := (ring_split h).1
  rw [hrs,List.append_assoc,List.singleton_append,linked_append] at hl
  exact ⟨hl.2.2.1,hl.2.1⟩

theorem ring_next_node {l : Links α} {xs ys : List α} {x : α} (h : Ring l (xs ++ x::ys)) :
    l.next (.node x) = firstRef ys ∧ l.prev (firstRef ys) = .node x := by
  obtain ⟨rs,hrs⟩ := refs_head_cons ys
  have hl := (ring_split h).2
  rw [hrs] at hl
  exact ⟨hl.1,hl.2.1⟩

/-- The members met on the way along `next`, at most `fuel` of them. -/
def walk (l : Links α) : ℕ → Ref α → List α
  | fuel+1, .node a => a::walk l fuel (l.next (.node a))
  | _, _ => []

theorem walk_suffix {l : Links α} (ys xs : List α) (h : Ring l (xs ++ ys)) (fuel : ℕ)
    (hf : ys.length ≤ fuel) : walk l fuel (firstRef ys) = ys := by
  induction ys generalizing xs fuel with
  | nil => cases fuel <;> rfl
  | cons y ys ih =>
    cases fuel with
    | zero => simp at hf
    | succ fuel =>
      have hr : Ring l ((xs ++ [y]) ++ ys) := by simpa using h
      rw [firstRef_cons,walk,(ring_next_node h).1,ih (xs ++ [y]) hr fuel (by simpa using hf)]

theorem walk_ring {l : Links α} {xs : List α} (h : Ring l xs) {fuel : ℕ} (hf : xs.length ≤ fuel) :
    walk l fuel (l.next .head) = xs := by
  rw [ring_next_head h]
  exact walk_suffix xs [] h fuel hf

/-- The links determine the ring. -/
theorem ring_unique {l : Links α} {xs ys : List α} (h : Ring l xs) (h' : Ring l ys) : xs = ys := by
  rw [← walk_ring h (Nat.le_max_left xs.length ys.length),walk_ring h' (Nat.le_max_right _ _)]

theorem lastRef_mem (xs : List α) : lastRef xs = .head ∨ lastRef xs ∈ refs xs := by
  rcases List.eq_nil_or_concat xs with rfl | ⟨ys,y,rfl⟩ <;> simp

theorem firstRef_mem (xs : List α) : firstRef xs = .head ∨ firstRef xs ∈ refs xs := by
  cases xs <;> simp [refs]

theorem lastRef_ne_node {xs : List α} {x : α} (hx : x ∉ xs) : lastRef xs ≠ .node x := by
  intro hc
  rcases lastRef_mem xs with he | he
  · rw [he] at hc; cases hc
  · rw [hc] at he; exact hx (mem_refs.mp he)

theorem firstRef_ne_node {xs : List α} {x : α} (hx : x ∉ xs) : firstRef xs ≠ .node x := by
  intro hc
  rcases firstRef_mem xs with he | he
  · rw [he] at hc; cases hc
  · rw [hc] at he; exact hx (mem_refs.mp he)

theorem head_refs_nodup {xs : List α} (h : xs.Nodup) : (Ref.head::refs xs).Nodup :=
  List.nodup_cons.mpr ⟨head_not_refs,refs_nodup h⟩

theorem refs_head_nodup {xs : List α} (h : xs.Nodup) : (refs xs ++ [Ref.head]).Nodup := by
  rw [List.nodup_append]
  refine ⟨refs_nodup h,List.nodup_singleton _,?_⟩
  intro a ha b hb hab
  rw [List.mem_singleton] at hb
  subst hb hab
  exact head_not_refs ha

theorem unlink_left {l m : Links α} {xs : List α} {x : α} {s : Ref α}
    (h : Linked l (.head::refs xs ++ [.node x])) (hxs : xs.Nodup) (hx : x ∉ xs)
    (hs : s ∉ refs xs)
    (hn : ∀ r, r ≠ lastRef xs → r ≠ .node x → m.next r = l.next r)
    (hp : ∀ r, r ≠ s → r ≠ .node x → m.prev r = l.prev r) :
    Linked m (.head::refs xs) := by
  obtain ⟨ps,hps⟩ := head_refs_concat xs
  have hnd := head_refs_nodup hxs
  rw [hps,List.append_assoc,List.singleton_append,linked_append,← hps] at h
  apply linked_congr h.1
  · intro r hr
    rw [hps] at hr hnd
    rw [List.dropLast_concat] at hr
    apply hn r
    · rintro rfl
      exact (List.nodup_append.mp hnd).2.2 _ hr _ (by simp) rfl
    · rintro rfl
      have hm : Ref.node x ∈ .head::refs xs := by rw [hps]; simp [hr]
      simp [hx] at hm
  · intro r hr
    apply hp r
    · rintro rfl
      exact hs hr
    · rintro rfl
      exact hx (mem_refs.mp hr)

theorem unlink_right {l m : Links α} {ys : List α} {x : α} {p : Ref α}
    (h : Linked l (.node x::(refs ys ++ [.head]))) (hys : ys.Nodup) (hx : x ∉ ys)
    (hp : p ∉ refs ys)
    (hn : ∀ r, r ≠ p → r ≠ .node x → m.next r = l.next r)
    (hq : ∀ r, r ≠ firstRef ys → r ≠ .node x → m.prev r = l.prev r) :
    Linked m (refs ys ++ [.head]) := by
  obtain ⟨ss,hss⟩ := refs_head_cons ys
  have hnd := refs_head_nodup hys
  rw [hss] at h ⊢
  apply linked_congr h.2.2
  · intro r hr
    rw [← hss,List.dropLast_concat] at hr
    apply hn r
    · rintro rfl
      exact hp hr
    · rintro rfl
      exact hx (mem_refs.mp hr)
  · intro r hr
    rw [hss] at hnd
    apply hq r
    · rintro rfl
      exact (List.nodup_cons.mp hnd).1 hr
    · rintro rfl
      have hm : Ref.node x ∈ refs ys ++ [.head] := by rw [hss]; exact List.mem_cons_of_mem _ hr
      simp [hx] at hm

section Updates
variable [DecidableEq α]

/-- `n.prev.next = n.next; n.next.prev = n.prev; n.next = n.prev = null`. -/
def Links.unlink (l : Links α) (n : α) : Links α :=
  let next := Function.update l.next (l.prev (.node n)) (l.next (.node n))
  let prev := Function.update l.prev (next (.node n)) (l.prev (.node n))
  { next := Function.update next (.node n) .null
    prev := Function.update prev (.node n) .null }

/-- `n.next = head.next; n.prev = head; head.next.prev = n; head.next = n`. -/
def Links.insertFront (l : Links α) (n : α) : Links α :=
  let next := Function.update l.next (.node n) (l.next .head)
  let prev := Function.update l.prev (.node n) .head
  { next := Function.update next .head (.node n)
    prev := Function.update prev (next .head) (.node n) }

/-- The words an unlink writes, for a member with known neighbours. -/
theorem unlink_words {l : Links α} {x : α} {p s : Ref α} (hp : l.prev (.node x) = p)
    (hs : l.next (.node x) = s) (hpx : p ≠ .node x) (hsx : s ≠ .node x) :
    (l.unlink x).next p = s ∧ (l.unlink x).prev s = p ∧
      (∀ r, r ≠ p → r ≠ .node x → (l.unlink x).next r = l.next r) ∧
      (∀ r, r ≠ s → r ≠ .node x → (l.unlink x).prev r = l.prev r) := by
  refine ⟨?_,?_,?_,?_⟩
  · simp [Links.unlink,hp,hs,Function.update_of_ne hpx]
  · simp [Links.unlink,hp,hs,Function.update_of_ne hpx.symm,Function.update_of_ne hsx]
  · intro r h1 h2
    simp [Links.unlink,hp,Function.update_of_ne h1,Function.update_of_ne h2]
  · intro r h1 h2
    simp [Links.unlink,hp,hs,Function.update_of_ne hpx.symm,Function.update_of_ne h1,
      Function.update_of_ne h2]

/-- Unlinking a member closes the ring over its two neighbours. -/
theorem unlink_split {l : Links α} {xs ys : List α} {x : α} (h : Ring l (xs ++ x::ys)) :
    Ring (l.unlink x) (xs ++ ys) := by
  obtain ⟨hxs,hys,hd⟩ := List.nodup_append.mp h.nodup
  obtain ⟨hxy,hys⟩ := List.nodup_cons.mp hys
  have hx : x ∉ xs := fun hm => hd x hm x (by simp) rfl
  have hdis : ∀ r ∈ refs xs, r ∉ refs ys := by
    intro r hr hr'
    obtain ⟨a,ha,rfl⟩ := List.mem_map.mp hr
    exact hd a ha a (by simp [mem_refs.mp hr']) rfl
  obtain ⟨hl,hr⟩ := ring_split h
  obtain ⟨h1,h2,h3,h4⟩ := unlink_words (ring_prev_node h).1 (ring_next_node h).1
    (lastRef_ne_node hx) (firstRef_ne_node hxy)
  have hleft := unlink_left hl hxs hx (by
    rcases firstRef_mem ys with he | he
    · rw [he]; exact head_not_refs
    · exact fun hc => hdis _ hc he) h3 h4
  have hright := unlink_right hr hys hxy (by
    rcases lastRef_mem xs with he | he
    · rw [he]; exact head_not_refs
    · exact hdis _ he) h3 h4
  obtain ⟨ps,hps⟩ := head_refs_concat xs
  obtain ⟨ss,hss⟩ := refs_head_cons ys
  refine ⟨?_,List.nodup_append.mpr ⟨hxs,hys,fun a ha b hb => hd a ha b (by simp [hb])⟩⟩
  have he : .head::refs (xs ++ ys) ++ [.head] = ps ++ lastRef xs::(firstRef ys::ss) := by
    rw [refs,List.map_append,← List.cons_append,List.append_assoc]
    change (.head::refs xs) ++ (refs ys ++ [.head]) = _
    rw [hps,hss,List.append_assoc,List.singleton_append]
  rw [he,linked_append,← hps]
  exact ⟨hleft,h1,h2,hss ▸ hright⟩

theorem ring_unlink [BEq α] [LawfulBEq α] {l : Links α} {xs : List α} {x : α} (h : Ring l xs)
    (hx : x ∈ xs) :
    Ring (l.unlink x) (xs.erase x) := by
  obtain ⟨as,bs,hm,rfl,he⟩ := List.exists_erase_eq hx
  rw [he]
  exact unlink_split h

theorem ring_insert {l : Links α} {xs : List α} {x : α} (h : Ring l xs) (hx : x ∉ xs) :
    Ring (l.insertFront x) (x::xs) := by
  obtain ⟨ss,hss⟩ := refs_head_cons xs
  have hfirst := ring_next_head h
  have hfx := firstRef_ne_node hx
  have hnd := refs_head_nodup h.nodup
  have hl := h.linked
  rw [List.cons_append,hss] at hl
  refine ⟨?_,List.nodup_cons.mpr ⟨hx,h.nodup⟩⟩
  change Linked _ (.head::.node x::(refs xs ++ [.head]))
  rw [hss]
  refine ⟨?_,?_,?_,?_,?_⟩
  · simp [Links.insertFront]
  · simp [Links.insertFront,hfirst,Function.update_of_ne hfx.symm]
  · simp [Links.insertFront,hfirst]
  · simp [Links.insertFront,hfirst]
  · apply linked_congr hl.2.2
    · intro r hr
      rw [← hss,List.dropLast_concat] at hr
      have h1 : r ≠ .head := by rintro rfl; exact head_not_refs hr
      have h2 : r ≠ .node x := by rintro rfl; exact hx (mem_refs.mp hr)
      simp [Links.insertFront,Function.update_of_ne h1,Function.update_of_ne h2]
    · intro r hr
      rw [hss] at hnd
      have h1 : r ≠ firstRef xs := by rintro rfl; exact (List.nodup_cons.mp hnd).1 hr
      have h2 : r ≠ .node x := by
        rintro rfl
        have hm : Ref.node x ∈ refs xs ++ [.head] := by rw [hss]; exact List.mem_cons_of_mem _ hr
        simp [hx] at hm
      simp [Links.insertFront,hfirst,Function.update_of_ne h1,Function.update_of_ne h2]

end Updates

end FaultCache.SentinelRing
