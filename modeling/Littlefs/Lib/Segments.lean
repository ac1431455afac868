import Mathlib.Data.List.Basic
import Mathlib.Tactic.Common

/-!
# Segments of a linked list

Nodes are read at pointers and name the pointer of the next node.  A segment
from one pointer to another is the list of the nodes between them.  Segments
compose, and they only depend on the reads at their own pointers.
-/

namespace Littlefs.Segments

variable {P N : Type}

inductive Segment (read : P → Option N) (next : N → P) : P → List N → P → Prop
  | nil (pointer : P) : Segment read next pointer [] pointer
  | cons {pointer stop : P} {node : N} {nodes : List N} (hread : read pointer = some node)
      (hnodes : Segment read next (next node) nodes stop) :
      Segment read next pointer (node :: nodes) stop

variable {read read' : P → Option N} {next : N → P} {pointer middle stop : P}
  {node : N} {nodes more : List N}

namespace Segment

theorem nil_iff : Segment read next pointer [] stop ↔ pointer = stop := by
  constructor
  · rintro ⟨⟩
    rfl
  · rintro rfl
    exact nil _

theorem cons_iff : Segment read next pointer (node :: nodes) stop ↔
    read pointer = some node ∧ Segment read next (next node) nodes stop := by
  constructor
  · rintro (_ | ⟨hread, hnodes⟩)
    exact ⟨hread, hnodes⟩
  · rintro ⟨hread, hnodes⟩
    exact cons hread hnodes

theorem append_iff : Segment read next pointer (nodes ++ more) stop ↔
    ∃ middle, Segment read next pointer nodes middle ∧ Segment read next middle more stop := by
  induction nodes generalizing pointer with
  | nil =>
      constructor
      · intro h
        exact ⟨pointer, nil _, h⟩
      · rintro ⟨middle, hnodes, hmore⟩
        rwa [nil_iff.mp hnodes]
  | cons node nodes ih =>
      rw [List.cons_append, cons_iff, ih]
      constructor
      · rintro ⟨hread, middle, hnodes, hmore⟩
        exact ⟨middle, cons hread hnodes, hmore⟩
      · rintro ⟨middle, hnodes, hmore⟩
        obtain ⟨hread, hnodes⟩ := cons_iff.mp hnodes
        exact ⟨hread, middle, hnodes, hmore⟩

theorem append (hnodes : Segment read next pointer nodes middle)
    (hmore : Segment read next middle more stop) :
    Segment read next pointer (nodes ++ more) stop :=
  append_iff.mpr ⟨middle, hnodes, hmore⟩

/-- The pointers a segment is read at are read alike. -/
theorem congr (hnodes : Segment read next pointer nodes stop)
    (hsame : ∀ p, ∀ node ∈ nodes, read p = some node → read' p = some node) :
    Segment read' next pointer nodes stop := by
  induction nodes generalizing pointer with
  | nil => exact nil_iff.mpr (nil_iff.mp hnodes)
  | cons node nodes ih =>
      obtain ⟨hread, hnodes⟩ := cons_iff.mp hnodes
      exact cons (hsame pointer node List.mem_cons_self hread)
        (ih hnodes fun p node hmem => hsame p node (List.mem_cons_of_mem _ hmem))

/-- Two segments from one pointer that both stop where nothing is read are the
same. -/
theorem unique {stop' : P} (hnodes : Segment read next pointer nodes stop)
    (hmore : Segment read next pointer more stop') (hstop : read stop = none)
    (hstop' : read stop' = none) : nodes = more ∧ stop = stop' := by
  induction nodes generalizing pointer more with
  | nil =>
      rw [← nil_iff.mp hnodes] at hstop ⊢
      cases hmore with
      | nil => exact ⟨rfl, rfl⟩
      | cons hread _ =>
          rw [hstop] at hread
          cases hread
  | cons node nodes ih =>
      obtain ⟨hread, hnodes⟩ := cons_iff.mp hnodes
      cases hmore with
      | nil =>
          rw [hstop'] at hread
          cases hread
      | cons hread' hmore =>
          rw [hread] at hread'
          cases hread'
          obtain ⟨rfl, rfl⟩ := ih hnodes hmore
          exact ⟨rfl, rfl⟩

/-- Of two segments from one pointer, one goes on where the other stops. -/
theorem extends_or {stop' : P} (hnodes : Segment read next pointer nodes stop)
    (hmore : Segment read next pointer more stop') :
    (∃ rest, more = nodes ++ rest ∧ Segment read next stop rest stop') ∨
      ∃ rest, nodes = more ++ rest ∧ Segment read next stop' rest stop := by
  induction nodes generalizing pointer more with
  | nil =>
      rw [← nil_iff.mp hnodes]
      exact Or.inl ⟨more, rfl, hmore⟩
  | cons node nodes ih =>
      cases hmore with
      | nil => exact Or.inr ⟨node :: nodes, rfl, hnodes⟩
      | cons hread' hmore =>
          obtain ⟨hread, hnodes⟩ := cons_iff.mp hnodes
          rw [hread] at hread'
          cases hread'
          apply (ih hnodes hmore).imp
          · rintro ⟨rest, rfl, hrest⟩
            exact ⟨rest, rfl, hrest⟩
          · rintro ⟨rest, rfl, hrest⟩
            exact ⟨rest, rfl, hrest⟩

/-- Every node is read at some pointer. -/
theorem exists_read (hnodes : Segment read next pointer nodes stop) (hmem : node ∈ nodes) :
    ∃ p, read p = some node := by
  induction nodes generalizing pointer with
  | nil => cases hmem
  | cons head nodes ih =>
      obtain ⟨hread, hnodes⟩ := cons_iff.mp hnodes
      rcases List.mem_cons.mp hmem with rfl | hmem
      · exact ⟨pointer, hread⟩
      · exact ih hnodes hmem

end Segment

end Littlefs.Segments
