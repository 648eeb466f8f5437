import PipelineLang.Proofs.Compilation.Signatures
import PipelineLang.Proofs.Leaf.Assignment

/-!
How many arguments the calls of a leaf pass. A call that is found to be right passes no fewer than
the function needs. It may pass too many to a function of which some parameters have defaults: for
these no upper bound is checked.
-/

namespace PipelineLang

namespace FunctionSignature

/-- A call with `n` arguments can bind them to the parameters: those without a default all get one,
and there are none left over, unless the function takes any number of them. -/
def Accepts (f : FunctionSignature) (n : Nat) : Prop :=
  f.params.length - f.defaults.toNat ≤ n ∧ (n ≤ f.params.length ∨ f.varargs = true)

/-- There are arguments left over, and the function has defaults. -/
def Overfull (f : FunctionSignature) (n : Nat) : Prop :=
  0 < f.defaults ∧ f.varargs = false ∧ f.params.length < n

instance (f : FunctionSignature) (n : Nat) : Decidable (f.Accepts n) :=
  inferInstanceAs (Decidable (_ ∧ _))

theorem Overfull.not_accepts {f : FunctionSignature} {n : Nat} (h : f.Overfull n) :
    ¬ f.Accepts n := by
  obtain ⟨-, hvarargs, hmany⟩ := h
  rintro ⟨-, hfits | hany⟩
  · omega
  · simp [hvarargs] at hany

end FunctionSignature

namespace Resolution

theorem arityProblem?_eq_none_iff {call : Call} {f : FunctionSignature} :
    arityProblem? call f = none ↔ f.Accepts call.arguments.length ∨
    f.Overfull call.arguments.length := by
  have hdefaults : 0 < f.defaults ↔ 0 < f.defaults.toNat := UInt64.lt_iff_toNat_lt
  simp only [arityProblem?, FunctionSignature.isVariadic, FunctionSignature.leastArguments,
    FunctionSignature.Accepts, FunctionSignature.Overfull, hdefaults]
  grind

theorem get?_of_packageImport {path name : String} {package functions : FunctionPackage}
    {f : FunctionSignature} (hkind : (packageImport path (.ok package)).1 = .package functions)
    (hf : functions.get? name = some f) :
    package.get? name = some f := by
  have hkept : functions = .ofList (package.entries.filter fun e => !e.2.keywords) := by
    rw [packageImport, List.partition_eq_filter_filter] at hkind
    exact (ImportKind.package.inj hkind).symm
  have hnodup : ((package.entries.filter fun e => !e.2.keywords).map Prod.fst).Nodup :=
    package.nodup_keys.sublist (List.filter_sublist.map _)
  rw [hkept, Table.get?_ofList hnodup, Table.find?_eq_some_iff hnodup] at hf
  exact Table.mem_entries_iff.mp (List.mem_of_mem_filter hf)

end Resolution

namespace Program

variable {p : Program} {file : String} {registry : Registry} {files : FileTree}

/-- Every call of a leaf without errors is of a function of an imported package and passes as many
arguments as the function needs. The function can be called with them, but for the case that it has
defaults, does not take any number of arguments, and gets more than it has parameters. -/
theorem arguments_of_clean {body : DoBlock} (hdef : p.component.definition = .leaf body)
    (hclean : ∀ f ∈ (p.resolve file registry files).findings, f.isError = false) :
    ∀ call ∈ callsOf body.commands, ∃ i ∈ p.imports, ∃ package f,
    i.localName.name = call.package.name
      ∧ (registry.functions files i.path.name).2 = .ok package ∧
      package.get? call.function.name = some f
      ∧ f.leastArguments ≤ call.arguments.length
      ∧ (f.Accepts call.arguments.length ↔ ¬ f.Overfull call.arguments.length) := by
  intro call hcall
  obtain ⟨entry, functions, f, hentry, hkind, hf, harity⟩ :=
    Resolution.exists_of_calleeFinding?_eq_none (calleeFinding?_of_clean hdef hclean call hcall)
  obtain ⟨i, hi, hname, -, hkind'⟩ :=
    exists_import_of_entry hclean (List.mem_of_find?_eq_some hentry)
  have hleaf : p.component.isLeaf = true := by rw [Component.isLeaf, hdef]
  obtain ⟨package, hpackage⟩ := exists_functions hclean hleaf hi
  rw [hleaf, Resolution.imported, if_pos rfl, hpackage, hkind] at hkind'
  have hlocal : entry.localName = call.package.name := by simpa using List.find?_some hentry
  refine ⟨i, hi, package, f, hname.symm.trans hlocal, hpackage,
    Resolution.get?_of_packageImport hkind'.symm hf, ?_⟩
  rcases Resolution.arityProblem?_eq_none_iff.mp harity with haccepts | hover
  · exact ⟨haccepts.1, fun _ hover => hover.not_accepts haccepts, fun _ => haccepts⟩
  · refine ⟨?_, fun haccepts => absurd haccepts hover.not_accepts, fun h => absurd hover h⟩
    exact Nat.le_trans (Nat.sub_le _ _) (Nat.le_of_lt hover.2.2)

def optionalArguments : Registry :=
  Registry.empty.insertPackage "m"
    (.ofList [("f", ⟨["x", "y"], 1, false, false⟩), ("g", ⟨["x"], 0, true, false⟩)])

def nestedCalls : String :=
  "import m as m component c inputs a outputs b do x <- let u <- m.f(a) in m.f(u, a) "
    ++ "y <- if x then z <- m.g(x, x, x) return z else return x endif return b <- y"

theorem nestedCalls_arguments :
    ∃ p body, leafOf? nestedCalls "c.pcl" optionalArguments = some (p, body)
      ∧ (callsOf body.commands).map (fun call => (call.qualifiedName, call.arguments.length)) =
        [("m.f", 1), ("m.f", 2), ("m.g", 3)]
      ∧ ∀ call ∈ callsOf body.commands, ∃ i ∈ p.imports, ∃ package f,
      i.localName.name = call.package.name
        ∧ (optionalArguments.functions .empty i.path.name).2 = .ok package
        ∧ package.get? call.function.name = some f ∧ f.leastArguments ≤ call.arguments.length
        ∧ (f.Accepts call.arguments.length ↔ ¬ f.Overfull call.arguments.length) := by
  have hcalls : (leafOf? nestedCalls "c.pcl" optionalArguments).map (fun x =>
      (callsOf x.2.commands).map fun call => (call.qualifiedName, call.arguments.length)) =
      some [("m.f", 1), ("m.f", 2), ("m.g", 3)] := by
    decide +kernel
  obtain ⟨⟨p, body⟩, hsome, hcalls⟩ := Option.map_eq_some_iff.mp hcalls
  obtain ⟨-, -, hdef, hclean⟩ := of_leafOf? hsome
  exact ⟨p, body, hsome, hcalls, arguments_of_clean hdef hclean⟩

def overfullCall : String :=
  "import m as m component c inputs a outputs b do x <- m.f(a, a, a) return b <- x"

/-- No error is found in a call that the function does not accept. -/
theorem overfullCall_not_accepted :
    ∃ p body call package f, leafOf? overfullCall "c.pcl" optionalArguments = some (p, body)
      ∧ callsOf body.commands = [call] ∧ (optionalArguments.functions .empty "m").2 = .ok package
      ∧ call.qualifiedName = "m.f" ∧ package.get? "f" = some f ∧
      ¬ f.Accepts call.arguments.length := by
  have hcalls : (leafOf? overfullCall "c.pcl" optionalArguments).map (fun x =>
      (callsOf x.2.commands).map fun call => (call.qualifiedName, call.arguments.length)) =
      some [("m.f", 3)] := by
    decide +kernel
  obtain ⟨⟨p, body⟩, hsome, hcalls⟩ := Option.map_eq_some_iff.mp hcalls
  obtain ⟨call, hcall, hfacts⟩ := List.map_eq_singleton_iff.mp hcalls
  rw [Prod.mk.injEq] at hfacts
  refine ⟨p, body, call, _, ⟨["x", "y"], 1, false, false⟩, hsome, hcall, rfl,
    hfacts.1, by decide +kernel, ?_⟩
  rw [hfacts.2]
  decide

end Program

end PipelineLang
