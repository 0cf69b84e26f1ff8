import LazyLang.Proofs.PartialCalls.ByName

/-!
# Calls in two portions

A function may be called with some of its arguments first and with the others afterwards. What the
first ones have told of the variables then stands in the parameters of the others, which may refuse
what they take when all arguments come at once. Where they do not, the program comes to the same.
-/

namespace LazyLang

/-- When the arguments that fill the parameters of a function are let through at once, the first
ones of them make a function of the parameters that are left. To this the others may be given if and
only if each passes for its parameter as it stands, and then the two programs end in the same way
but for the places of their messages, if the function has a slot for each argument, as its type
says. -/
theorem called_in_portions {f : Tree} {xs ys : List Tree} {params : List Ty} {result : Ty}
    {source portions : String} (hys : ys ≠ []) (h : (Tree.calling f (xs ++ ys)).ReadFrom source)
    (h' : (Tree.calling (Tree.calling f xs) ys).ReadFrom portions)
    (hf : f.verdict Scope.loaded.types = some (.function params result))
    (hlen : params.length = xs.length + ys.length)
    (hcompiled : (compile source Scope.loaded.types).compiled = true) :
    ∃ rest given, (Tree.calling f xs).verdict Scope.loaded.types = some (.function rest given) ∧
      rest.length = ys.length ∧
      ((compile portions Scope.loaded.types).compiled = true ↔
        rest.Forall₂ (Tree.PassesFor Scope.loaded.types) ys) ∧
      ((compile portions Scope.loaded.types).compiled = true → f.Takes (xs.length + ys.length) →
        ∀ limit a, EndsAs source limit a ↔ EndsAs portions limit a) := by
  obtain ⟨t, ht⟩ := h.compiled_iff.1 hcompiled
  obtain ⟨rest, given, hcall, hrest, hiff⟩ :=
    Tree.verdict_portions (Scope.regular_standard .empty) hys hf hlen ht
  refine ⟨rest, given, hcall, hrest, h'.compiled_iff.trans hiff, fun hportions htakes limit a => ?_⟩
  obtain ⟨u, hu⟩ := h'.compiled_iff.1 hportions
  rw [h.endsAs_iff ht, h'.endsAs_iff hu]
  simp only [Tree.stripsTo_portions hys htakes]

section Samples

theorem takes_map : (Tree.named "map").Takes 2 :=
  Tree.takes_named (r := ⟨32⟩) rfl rfl

/-- After `floor` the parameter is an array of floats, which takes one of integers. -/
theorem called_in_portions_sample :
    let items : Tree := .array (Node.plain Span.origin) [Tree.number 1]
    (Tree.calling (Tree.named "map") [Tree.named "floor", items]).ReadFrom "map(floor, [1])" ∧
      (Tree.calling (Tree.calling (Tree.named "map") [Tree.named "floor"]) [items]).ReadFrom
        "map(floor)([1])" ∧
      (compile "map(floor, [1])" Scope.loaded.types).compiled = true ∧
      (compile "map(floor)([1])" Scope.loaded.types).compiled = true ∧
      ∀ limit a, EndsAs "map(floor, [1])" limit a ↔ EndsAs "map(floor)([1])" limit a := by
  intro items
  have h : (Tree.calling (Tree.named "map") ([Tree.named "floor"] ++ [items])).ReadFrom
      "map(floor, [1])" := by
    refine Tree.readFrom_of_readsAs ?_
    rw [Tree.readsAs, Token.tokenize_eq]
    decide +kernel
  have h' : (Tree.calling (Tree.calling (Tree.named "map") [Tree.named "floor"]) [items]).ReadFrom
      "map(floor)([1])" := by
    refine Tree.readFrom_of_readsAs ?_
    rw [Tree.readsAs, Token.tokenize_eq]
    decide +kernel
  have hmap : (Tree.named "map").verdict Scope.loaded.types = some Builtin.map.type := by
    decide +kernel
  have hverdict : (Tree.calling (Tree.named "map") ([Tree.named "floor"] ++ [items])).verdict
      Scope.loaded.types = some (.array .integer) := by decide +kernel
  have hc := h.compiled_iff.2 ⟨_, hverdict⟩
  obtain ⟨rest, given, hcall, -, hiff, hends⟩ :=
    called_in_portions (List.cons_ne_nil items []) h h' hmap rfl hc
  have hfloor : (Tree.calling (Tree.named "map") [Tree.named "floor"]).verdict Scope.loaded.types =
      some (.function [.array .float] (.array .integer)) := by decide +kernel
  cases hfloor.symm.trans hcall
  have hitems : Tree.verdict Scope.loaded.types items = some (.array .integer) := by decide +kernel
  have hc' : (compile "map(floor)([1])" Scope.loaded.types).compiled = true :=
    hiff.2 (.cons ⟨_, hitems, by decide +kernel⟩ .nil)
  exact ⟨h, h', hc, hc', hends hc' takes_map⟩

/-- An integer and a float are a float for `if`, but an integer alone stands in the parameter that
is left for the other. And what the checker takes for a function of two parameters may be
`identity`: a variable that nothing is known of passes for every type. -/
theorem not_called_in_portions :
    let root := Tree.calling (Tree.named "sqrt") [Tree.number 4]
    let first := [Expr.boolean (Node.plain Span.origin) true, Tree.number 1]
    (Tree.calling (Tree.named "if") (first ++ [root])).ReadFrom "if(true, 1, sqrt(4))" ∧
      (Tree.calling (Tree.calling (Tree.named "if") first) [root]).ReadFrom
        "if(true, 1)(sqrt(4))" ∧
      (compile "if(true, 1, sqrt(4))" Scope.loaded.types).compiled = true ∧
      (compile "if(true, 1)(sqrt(4))" Scope.loaded.types).compiled = false ∧
      ((Runner.ofFuel 9).execute "if(true, identity(identity), flip(if(_, _, sin)))(const(7), 4)"
          Scope.loaded none Store.loaded).map (fun p => (p.1.compiled, p.1.evaluated)) =
        some (true, false) ∧
      ((Runner.ofFuel 9).execute "if(true, identity(identity), flip(if(_, _, sin)))(const(7))(4)"
          Scope.loaded none Store.loaded).map (fun p => (p.1.compiled, p.1.evaluated)) =
        some (true, true) := by
  refine ⟨Tree.readFrom_of_readsAs ?_, Tree.readFrom_of_readsAs ?_, ?_, ?_, ?_, ?_⟩
  · rw [Tree.readsAs, Token.tokenize_eq]
    decide +kernel
  · rw [Tree.readsAs, Token.tokenize_eq]
    decide +kernel
  · rw [compile, Token.tokenize_eq]
    decide +kernel
  · rw [compile, Token.tokenize_eq]
    decide +kernel
  · rw [Runner.execute, compile, Token.tokenize_eq]
    decide +kernel
  · rw [Runner.execute, compile, Token.tokenize_eq]
    decide +kernel

end Samples

end LazyLang
