import PageScript.Machine.Host
import PageScript.Proofs.Machine.Contents

/-!
# Proofs/Machine/Services — what the functions of the standard host do

A deed is *modest* if it replaces no member of an object and gives no place to a fault.  The functions
of the standard host do nothing but modest deeds (`Host.modest_standard`), so what is said of stores
whose native functions replace no members, or leave the places of their faults to their callers, is
said of it.
-/

namespace PageScript

/-- A deed that neither replaces a member nor gives a place to a fault. -/
structure Deed.IsModest (deed : Deed) : Prop where
  replaces : deed.replaces = false
  places : deed.places = false

namespace Routine

theorem modest_fail (refusal : Refusal) : (fail refusal).Does Deed.IsModest := .act ⟨rfl, rfl⟩ nofun

theorem modest_answerWith (value : Literal) : (answerWith value).Does Deed.IsModest :=
  .act ⟨rfl, rfl⟩ fun _ => .act ⟨rfl, rfl⟩ fun _ => .answer

theorem modest_withText {register : Nat} {next : String → Routine}
    (h : ∀ text, (next text).Does Deed.IsModest) : (withText register next).Does Deed.IsModest := by
  refine .act ⟨rfl, rfl⟩ fun value => ?_
  split
  · exact h _
  · exact modest_fail _

end Routine

namespace Service

open Routine

theorem modest_write : write.Does Deed.IsModest
  | 1 => modest_withText fun _ => .act ⟨rfl, rfl⟩ fun _ => modest_answerWith _
  | 0 | _ + 2 => modest_fail _

theorem modest_addHeader : addHeader.Does Deed.IsModest
  | 2 => modest_withText fun _ => modest_withText fun _ =>
    .act ⟨rfl, rfl⟩ fun _ => modest_answerWith _
  | 0 | 1 | _ + 3 => modest_fail _

theorem modest_queryString : queryString.Does Deed.IsModest
  | 1 => modest_withText fun _ => .act ⟨rfl, rfl⟩ fun _ => modest_answerWith _
  | 0 | _ + 2 => modest_fail _

theorem modest_renderTime : renderTime.Does Deed.IsModest
  | 0 => .act ⟨rfl, rfl⟩ fun _ => modest_answerWith _
  | _ + 1 => modest_fail _

end Service

/-! ## Hosts -/

namespace Store.Does

variable {s : Store} {p : Deed → Prop} (h : s.Does p)

include h

theorem mono {q : Deed → Prop} (hpq : ∀ deed, p deed → q deed) : s.Does q := by
  intro id f stored
  cases f with
  | native => exact (h id _ stored).mono hpq
  | script => trivial

theorem newNative {service : Service} (does : service.Does p) (name : String) :
    (s.newNative name service).2.Does p :=
  h.newFunction (f := .native (.ofString name) service []) does

theorem newServices (owner : String) (services : List (String × Service))
    (does : ∀ entry ∈ services, entry.2.Does p) : (s.newServices owner services).2.Does p := by
  suffices further : ∀ (services : List (String × Service)) (id : ObjectId) {s : Store}, s.Does p →
      (∀ entry ∈ services, entry.2.Does p) →
        (services.foldl (fun s entry => s.offer owner id entry.1 entry.2) s).Does p from
    further services _ h does
  intro services id
  induction services with
  | nil => exact fun h _ => h
  | cons entry rest ih =>
    intro s h does
    obtain ⟨first, does⟩ := List.forall_mem_cons.mp does
    exact ih (h.newNative first (owner ++ "." ++ entry.1)) does

end Store.Does

/-- **The functions of the standard host are modest**, next to others that are. -/
theorem Host.modest_standard {s : Store} (h : s.Does Deed.IsModest) :
    (Host.standard s).2.Does Deed.IsModest := by
  have response := h.newServices "Response" [("Write", .write), ("AddHeader", .addHeader)]
    (List.forall_mem_cons.mpr ⟨Service.modest_write,
      List.forall_mem_cons.mpr ⟨Service.modest_addHeader, List.forall_mem_nil _⟩⟩)
  have request := response.newServices "Request" [("QueryString", .queryString)]
    (List.forall_mem_cons.mpr ⟨Service.modest_queryString, List.forall_mem_nil _⟩)
  exact request.newNative Service.modest_renderTime "RenderTime"

theorem Store.does_empty (p : Deed → Prop) : Store.empty.Does p := by
  intro id f stored
  cases (Array.getElem?_empty (i := id.index)).symm.trans stored

end PageScript
