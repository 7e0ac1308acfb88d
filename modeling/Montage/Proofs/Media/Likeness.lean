import Montage.Box.Medium
import Montage.Html.Medium
import Montage.Proofs.Render.Jobs

/-!
Text that is shown in a document and in boxes. Main statements: where a document shows no error and no
button, each way of showing something that both media have gives the same text in both.
-/

namespace Montage

open Json (Value)

namespace Rose

variable {α : Type}

mutual

/-- Whether all items of a tree are such. -/
def all (p : α → Bool) : Rose α → Bool
  | .node item children => p item && allOf p children

def allOf (p : α → Bool) : List (Rose α) → Bool
  | [] => true
  | r :: rs => all p r && allOf p rs

end

variable {p : α → Bool} {f : α → List Char} {rs rs' : List (Rose α)}

theorem allOf_append : allOf p (rs ++ rs') = (allOf p rs && allOf p rs') := by
  induction rs with
  | nil => rfl
  | cons r rs ih => rw [List.cons_append, allOf, allOf, ih, Bool.and_assoc]

theorem gatherAll_append : gatherAll f (rs ++ rs') = gatherAll f rs ++ gatherAll f rs' := by
  induction rs with
  | nil => rfl
  | cons r rs ih => rw [List.cons_append, gatherAll, gatherAll, ih, List.append_assoc]

end Rose

/-- The text that a node gives. -/
def Html.Item.content : Html.Item → List Char
  | .text s => s.toList
  | _ => []

@[inherit_doc Html.Item.content]
def Box.Item.content : Box.Item → List Char
  | .text s => s.toList
  | _ => []

/-- Whether a node is neither an error nor a button for the rest of a list. -/
def Html.Item.isPlain : Html.Item → Bool
  | .element tag _ attributes => tag != "button" && !Fields.contains attributes "data-kind"
  | _ => true

/-- What is shown in a document gives the same text as what is shown in boxes, unless it has errors or
buttons. -/
def Agree (shown : List (Rose Html.Item)) (boxes : List (Rose Box.Item)) : Prop :=
  Rose.allOf Html.Item.isPlain shown = true →
    Rose.gatherAll Html.Item.content shown = Rose.gatherAll Box.Item.content boxes

namespace Agree

variable {shown shown' : List (Rose Html.Item)} {boxes boxes' : List (Rose Box.Item)}

theorem nil : Agree [] [] :=
  fun _ => rfl

theorem append (h : Agree shown boxes) (h' : Agree shown' boxes') :
    Agree (shown ++ shown') (boxes ++ boxes') := by
  intro hplain
  rw [Rose.allOf_append, Bool.and_eq_true] at hplain
  rw [Rose.gatherAll_append, Rose.gatherAll_append, h hplain.1, h' hplain.2]

/-- A text. -/
theorem text (s : String) :
    Agree [.node (Medium.text s) []] [.node (Medium.text s) []] :=
  fun _ => rfl

/-- A value, be it known or not. -/
theorem value (settings : Settings) (marker : Option Marker) (v : Value) :
    Agree [Medium.value settings marker v] [Medium.value settings marker v] := by
  cases marker with
  | none => exact fun _ => rfl
  | some m =>
    intro _
    have hlink : (Html.value settings (some m) v).gather Html.Item.content = m.title.toList := by
      simp only [Html.value, Html.Item.addClass]
      split <;> simp [Rose.gather, Rose.gatherAll, Html.leaf, Html.Item.content]
    exact congrArg (· ++ []) (hlink.trans (List.append_nil _).symm)

/-- A place of a view that was skipped. -/
theorem skipped : Agree [.node (Medium.skip Medium.reserved) []] [.node (Medium.skip Medium.reserved) []] :=
  fun _ => rfl

/-- Errors are told in different words. -/
theorem failure (e : Error) (offending : Option Value) (boxes : List (Rose Box.Item)) :
    Agree [Medium.failure e offending] boxes := by
  intro hplain
  simp [Medium.failure, Html.failure, Rose.allOf, Rose.all, Html.Item.isPlain, Fields.contains,
    Fields.get?] at hplain

/-- A list that is cut is told so in different words. -/
theorem more (settings : Settings) (limit : Option Nat) (remaining : Nat)
    (boxes : List (Rose Box.Item)) : Agree [(Medium.more settings limit remaining).rose] boxes := by
  intro hplain
  simp [Medium.more, Html.more, Affordance.rose, Rose.allOf, Rose.all, Rose.allOf_append,
    Html.Item.isPlain, Html.Item.ofTag] at hplain

theorem rest {F : Type} (settings : Settings) (page : Page F) :
    Agree (page.rest settings) (page.rest settings) := by
  unfold Page.rest
  split
  · exact more _ _ _ _
  · exact nil

end Agree

/-! Finished outputs. -/

namespace Html

theorem content_addClass (c : String) (item : Item) : (item.addClass c).content = item.content := by
  cases item with
  | element tag classes attributes =>
    rw [Item.addClass]
    split <;> rfl
  | _ => rfl

theorem foldl_addClass_content (classes : List String) (item : Item) :
    (classes.foldl (fun v c => Medium.addClass c v) item).content = item.content := by
  induction classes generalizing item with
  | nil => rfl
  | cons c classes ih => exact (ih _).trans (content_addClass c item)

theorem content_output (shape : Shape) : (Medium.output shape : Item).content = [] := by
  simp only [Medium.output]
  split <;> rfl

end Html

section Settled

variable {F : Type} {kids : List (Rose Html.Item)} {kids' : List (Rose Box.Item)}
  (b : Brief F) (p : Prepared F)

variable (kids) in
theorem Html.settled_frame (s : Setup F Html.Item) (shape : Shape) :
    (Rose.allOf Html.Item.isPlain (b.settled s p (.node (Medium.output shape) kids)) = true →
      Rose.allOf Html.Item.isPlain kids = true) ∧
    Rose.gatherAll Html.Item.content (b.settled s p (.node (Medium.output shape) kids)) =
      Rose.gatherAll Html.Item.content kids := by
  rw [Brief.settled]
  split
  · exact ⟨id, rfl⟩
  · constructor
    · intro hplain
      simp only [Rose.allOf, Rose.all, Bool.and_true, Bool.and_eq_true] at hplain
      exact hplain.2
    · rw [Rose.gatherAll, Rose.gather, foldl_addClass_content, content_output]
      exact List.append_nil _

/-- A box takes the place held for it as it is. -/
theorem Box.settled_eq (s : Setup F Box.Item) (item : Box.Item) :
    b.settled s p (.node item kids') = [.node item kids'] := by
  have hclasses : ∀ (classes : List String) (item : Box.Item),
      classes.foldl (fun v c => Medium.addClass c v) item = item := by
    intro classes item
    induction classes with
    | nil => rfl
    | cons c classes ih => exact ih
  rw [Brief.settled, if_neg (show ¬Medium.isFragment item = true from nofun), hclasses]

theorem Box.gatherAll_settled (s : Setup F Box.Item) (shape : Shape) :
    Rose.gatherAll Box.Item.content (b.settled s p (.node (Medium.output shape) kids')) =
      Rose.gatherAll Box.Item.content kids' := by
  have hcontent : (Medium.output shape : Box.Item).content = [] := by
    simp only [Medium.output, Box.output]
    split <;> rfl
  rw [Box.settled_eq, Rose.gatherAll, Rose.gather, hcontent]
  exact List.append_nil _

/-- An output shows what was painted into it. -/
theorem Agree.settled {b' : Brief F} {p' : Prepared F} {s : Setup F Html.Item} {s' : Setup F Box.Item}
    {shape shape' : Shape} (h : Agree kids kids') :
    Agree (b.settled s p (.node (Medium.output shape) kids))
      (b'.settled s' p' (.node (Medium.output shape') kids')) := by
  intro hplain
  obtain ⟨hkids, htext⟩ := Html.settled_frame kids b p s shape
  rw [htext, Box.gatherAll_settled, h (hkids hplain)]

end Settled

end Montage
