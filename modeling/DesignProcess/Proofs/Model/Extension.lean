import DesignProcess.Proofs.Model.Mirror

namespace DesignProcess

def Registry.Extends (r r' : Registry) : Prop :=
  ∀ id reg, r.get? id = some reg → r'.get? id = some reg

namespace Model

variable {fs : FileSystem} {r r' : Registry}

mutual

theorem Mirrors.extend {path : KeyPath} {spec : ModelSpec} {m : Model}
    (h : Mirrors fs r path spec m) (hr : r.Extends r') : Mirrors fs r' path spec m := by
  cases h with
  | component found created absorbed => exact .component (hr _ _ found) created absorbed
  | group nonlinear linear each => exact .group nonlinear linear (each.extend hr)

theorem MirrorsEach.extend {path : KeyPath} {specs : List (String × ModelSpec)}
    {children : List (String × Model)} (h : MirrorsEach fs r path specs children)
    (hr : r.Extends r') : MirrorsEach fs r' path specs children := by
  cases h with
  | nil => exact .nil
  | cons head tail => exact .cons (head.extend hr) (tail.extend hr)

end

theorem build_extend {spec : ModelSpec} {m : Model} (h : (build fs r spec).result = .ok m)
    (hr : r.Extends r') : (build fs r' spec).result = .ok m :=
  build_eq_ok_iff.mpr ((build_eq_ok_iff.mp h).extend hr)

end Model

end DesignProcess
