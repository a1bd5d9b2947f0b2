import AsyncOrder.Proofs.Scope.Renumbering
import AsyncOrder.Session.Run

/-!
# A run of all passes

Without memory tracing a run is the passes one after the other: build, resolve, stitch and reduce
the scopes of the program, rewrite it from the reduced tree, clean it up.
-/

namespace AsyncOrder

variable {p : Program} {options : Options} {t reduced : ScopeTree} {c : Context}

theorem required_cleanup : Pass.required .cleanup =
    [.build, .trace, .resolve, .stitch, .reduce, .rewrite, .cleanup] := by
  decide

/-- The run of a program whose scopes build and reduce. -/
theorem canonicalize_of_reduce (hp : p.WellFormed) (htrace : options.traceMemory = false)
    (hbuild : p.scopeTree = .ok (t, c)) (hstitch : (p.resolve c t).tree.stitch.failure = none)
    (hreduce : (p.resolve c t).tree.stitch.scopes.reduce = .ok reduced) :
    (p.canonicalize options).failure = none ∧
      (p.canonicalize options).session.program = (p.rewriteTokens reduced).1.cleanup.1 := by
  have hmaps := ((laid_of_scopeTree hp hbuild).regular_resolve hp).reduceWithMaps_eq hreduce
  simp [Program.canonicalize, Session.run, required_cleanup, Session.runAll, Session.runPass,
    Session.missing?, Pass.inputs, Pass.outputs, Session.start, Session.has, Session.attempt,
    Session.build, hbuild, Session.done, Session.finish, Session.produce, htrace,
    Session.resolve, Session.stitch, hstitch, Session.reduce, hmaps, Session.rewrite,
    Session.cleanup, Session.countRewrite]

end AsyncOrder
