import BinaryLayout.Proofs.Blueprint.Outline

/-!
# Histories of catalogs do not show

What a catalog has been asked before has no influence on what it gives. Whether earlier requests
succeeded or failed, and whatever they left behind, two catalogs with one dialect answer a request
alike: with layouts of the same structure, or with the same failure (`Catalog.answers_agree`). Both
give the outline of the request, with handles of their own (`Request.run_refines`).

The exception are requests to keep a layout under a signature. They do not describe what they are
to give: two composites can have one signature and different members.
-/

namespace BinaryLayout

open Outcome (Agree)

namespace Catalog

variable {dialect : Dialect} {requests requests' : List Request} {request : Request}

/-- The answer of a catalog with an honest history is the outline of the request with handles. -/
theorem answer_refines (owner : Nat) (hr : ∀ request ∈ requests, request.Honest)
    (hd : request.Describes) :
    Agree (Prod.map (List.map Layout.anonymous) id · = ·)
      (((empty owner dialect).after requests).answer request).1 (request.outline dialect) := by
  obtain ⟨hhonest, hdialect⟩ := (honest_empty owner dialect).after hr
  exact (Request.run_refines dialect hd _ hhonest hdialect).1

/-- Catalogs with one dialect, whatever they have been asked before, answer every request that
describes what it is to give alike: they give layouts of the same structure and lay out as many
bits, or fail for one cause. -/
theorem answers_agree (owner owner' : Nat) (hr : ∀ request ∈ requests, request.Honest)
    (hr' : ∀ request ∈ requests', request.Honest) (hd : request.Describes) :
    Agree (fun given given' =>
        Layout.sameStructures given.1 given'.1 = true ∧ given.2 = given'.2)
      (((empty owner dialect).after requests).answer request).1
      (((empty owner' dialect).after requests').answer request).1 := by
  refine (answer_refines owner hr hd).join (answer_refines owner' hr' hd) ?_
  rintro ⟨layouts, finish⟩ ⟨layouts', finish'⟩ _ rfl houtline
  obtain ⟨hlayouts, hfinish⟩ := Prod.mk.inj houtline
  rw [Layout.sameStructures_iff, Layout.anonymousAll_eq, Layout.anonymousAll_eq]
  exact ⟨hlayouts.symm, hfinish.symm⟩

/-- A byte, three bits and a number of two bytes, which would start inside a byte. -/
def straddlingRequest : Request := .pack (.sequence [.format "B", .format "R3", .format "H"])

/-- A request to keep a byte. -/
def keepingRequest : Request := .getOrAdd "UInt1L" (.atom ⟨2, 0⟩ (.integer .unsigned 1 .little))

/-- A build that fails leaves two fields in the catalog. What the catalog gives afterwards has the
structure of what another one gives, which has been asked to keep one of its fields. -/
theorem answers_agree_after_failure :
    ((empty 0 .big).answer straddlingRequest).1 = .error (.misaligned "UInt2B" 3) ∧
      ((empty 0 .big).after [straddlingRequest]).size = 2 ∧
        Agree (fun given given' =>
            Layout.sameStructures given.1 given'.1 = true ∧ given.2 = given'.2)
          (((empty 0 .big).after [straddlingRequest]).answer (.parse "<BR3R5" 0)).1
          (((empty 1 .big).after [keepingRequest]).answer (.parse "<BR3R5" 0)).1 := by
  have hfailed : ∀ request ∈ [straddlingRequest], request.Honest := by
    simp [straddlingRequest, Request.Honest]
  have hkept : ∀ request ∈ [keepingRequest], request.Honest := by
    intro request hmem
    obtain rfl := List.mem_singleton.mp hmem
    exact show (Field.integer .unsigned 1 .little).signature = "UInt1L" from rfl
  exact ⟨by decide +kernel, by decide +kernel, answers_agree 0 1 hfailed hkept trivial⟩

end Catalog

end BinaryLayout
