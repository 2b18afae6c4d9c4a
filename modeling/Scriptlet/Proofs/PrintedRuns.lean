import Scriptlet.Proofs.Relocation
import Scriptlet.Proofs.RoundTrip

/-!
Running the text of a program. If its numbers are finite, the canonical text of a program that was
compiled does what the program did: it prints the same, ends well or with the same message, and
leaves the same behind but for the places of tokens. A number that was too large for a double is
written as a name, and then the text means something else.
-/

namespace Scriptlet

theorem compile_text {source : String} {p : Program} (h : compile source = .ok p)
    (hfinite : p.Finite) : ∃ q, compile (p.text .canonical) = .ok q ∧ q.unplaced = p.unplaced := by
  obtain ⟨hprogram, -⟩ := compile_eq_ok_iff.1 h
  obtain ⟨hcanonical, hnesting, -⟩ := Grammar.program_eq_ok_iff.1 hprogram
  obtain ⟨herrors, ts, hfits, htokens⟩ := Program.scan_text hcanonical (Program.spelt hprogram)
  rw [Program.recast_respelled hcanonical hfinite hfits] at hfits
  have hkinds := Grammar.kind_ne_endOfInput (p.canonical_unplaced.2 hcanonical) hfits
  rw [← takeWhile_of_unplaced htokens hkinds] at hfits
  obtain ⟨q, hq, hqfits⟩ := Stmt.placed_all _ _ hfits
  have hsame : Program.unplaced q = p.unplaced := hq
  refine ⟨q, compile_eq_ok_iff.2 ⟨Grammar.program_eq_ok_iff.2 ⟨?_, ?_, hqfits⟩, herrors⟩, hsame⟩
  · rwa [← Program.canonical_unplaced, hsame, Program.canonical_unplaced]
  · rwa [← Program.nesting_unplaced, hsame, Program.nesting_unplaced]

/-- The canonical text of a program with finite numbers does what the program does, on every
machine. -/
theorem printed_program_runs_alike {source : String} {p : Program}
    (compiled : compile source = .ok p) (finite : p.Finite) (host : Host)
    (blind : host.natives.Blind) (m : Machine) :
    SameShow (host.run source m) (host.run (p.text .canonical) m) := by
  obtain ⟨q, hq, hsame⟩ := compile_text compiled finite
  rw [host.run_of_compile compiled, host.run_of_compile hq]
  exact sameShow_of_outcome (interpret_of_unplaced blind hsame m)

/-- The failing name stands in another place of the text, and the failure is the same. -/
theorem printed_program_runs_alike_unknown_name :
    let source := "var a=0.50; // half\nfun f(x)\x7breturn x+a;\x7dprint missing;"
    let text := "let a = 0.5;\nfunction f(x) \x7b\n  return x + a;\n\x7d\nprint missing;\n"
    let p : Program := [
      .variableDecl ⟨.identifier, "a", none, ⟨1, 5⟩⟩ (some (.literal (.number 0.5))) false,
      .functionDecl ⟨.identifier, "f", none, ⟨2, 5⟩⟩ [⟨.identifier, "x", none, ⟨2, 7⟩⟩]
        [.returnStmt ⟨.returnWord, "return", none, ⟨2, 10⟩⟩ (some (.binary
          (.identifier ⟨.identifier, "x", none, ⟨2, 17⟩⟩) ⟨.plus, "+", none, ⟨2, 18⟩⟩
          (.identifier ⟨.identifier, "a", none, ⟨2, 19⟩⟩)))],
      .print ⟨.printWord, "print", none, ⟨2, 22⟩⟩
        (.identifier ⟨.identifier, "missing", none, ⟨2, 28⟩⟩)]
    compile source = .ok p ∧ p.Finite ∧ p.text .canonical = text ∧
      ∀ settings clock m, let host := Host.standard settings clock
        SameShow (host.run source m) (host.run text m) := by
  intro source text p
  have hcanonical : p.Canonical := by
    simp only [p, Program.Canonical, Stmt.AllCanonical, Stmt.Canonical, Expr.CanonicalIfAny,
      Expr.Canonical, Option.mem_some_iff, forall_eq', and_true, true_and]
    exact ⟨by decide, by decide, by decide, .term, rfl, rfl, by decide, by decide⟩
  have hprogram : Grammar.program (Scan.ofText source).tokens = .ok p :=
    Grammar.program_eq_ok_iff.2 ⟨hcanonical, by decide, by decide +kernel⟩
  have h : compile source = .ok p := compile_eq_ok_iff.2 ⟨hprogram, by decide +kernel⟩
  have htext : p.text .canonical = text := by decide +kernel
  have hfinite : p.Finite := by
    intro x hx
    have hx : x = 0.5 := by simpa [p, Program.written, Stmt.writtenAll, Stmt.written,
      Expr.writtenAfter, Expr.written] using hx
    rw [hx]
    decide +kernel
  refine ⟨h, hfinite, htext, fun settings clock m => ?_⟩
  rw [← htext]
  exact printed_program_runs_alike h hfinite (.standard settings clock)
    (Natives.blind_builtins clock) m

/-- A number too large for a double is written as a name, which nothing defines. -/
theorem printed_infinity_is_a_name :
    let source := "print 1" ++ String.ofList (List.replicate 309 '0') ++ ";"
    let host := Host.standard {} fun _ => none
    let m := (Machine.fresh (.empty none)).installBuiltins
    (compile source).map (Program.text .canonical) = .ok "print inf;\n" ∧
      ((host.run source m).1 = .ok () ∧ (host.run source m).2.output.textFrom 0 = "inf\n") ∧
      (host.run "print inf;\n" m).1 =
        .error [⟨.runtime, 1, some 7, "Undefined variable 'inf'."⟩] ∧
      (host.run "print inf;\n" m).2.output.textFrom 0 = "" := by
  intro source host m
  let p : Program := [.print ⟨.printWord, "print", none, ⟨1, 1⟩⟩
    (.literal (.number (Decimal.ofChars ('1' :: List.replicate 309 '0')).toFloat))]
  have hp : p.Canonical := by
    simp [p, Program.Canonical, Stmt.AllCanonical, Stmt.Canonical, Expr.Canonical]
  have hscan : Scan.ofText source =
      Scan.ofChars ("print 1".toList ++ List.replicate 309 '0' ++ ";".toList) := by
    simp only [Scan.ofText, source, String.toList_append, String.toList_ofList]
  have hcompile : compile source = .ok p := by
    rw [compile_eq_ok_iff, hscan, Grammar.program_eq_ok_iff]
    exact ⟨⟨hp, by decide, by decide +kernel⟩, by decide +kernel⟩
  have hrun : host.run source m = reported (host.interpret p m) :=
    host.run_of_compile hcompile m
  rw [hcompile, hrun]
  refine ⟨?_, ⟨?_, ?_⟩, ?_, ?_⟩ <;> decide +kernel

end Scriptlet
