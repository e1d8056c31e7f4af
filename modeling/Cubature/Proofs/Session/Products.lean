import Cubature.Proofs.Decimal.Powers
import Cubature.Proofs.Rule.Index
import Cubature.Proofs.Session.Calls
import Cubature.Proofs.Session.Contents

/-!
# Product rules over a run

What is obtained from a registry at an order is made of the same one-dimensional rules, whatever
was requested before and in between (`Session.Products`): square and cube rules of the line rule
that the registry keeps, triangle and tetrahedron rules of the rules for `(1 - x) ^ alpha` moved to
`[0, 1]`.

The main statement is `products_of_run`.
-/

namespace Cubature

open Rule (pairPosition triplePosition squarePoint cubePoint trianglePoint tetrahedronPoint)

/-! ## Rules on the unit interval -/

namespace Gauss

/-- The one-dimensional rule for `(1 - x) ^ alpha` with `n` points, moved to `[0, 1]`, has the nodes
`x` with the weights `w`. A node `y` of the rule on `[-1, 1]` is moved to one half of `1 + y`, and
its weight is multiplied by one half to the power `alpha + 1`, which is a double itself. -/
def OnUnit (limits : Limits Float) (alpha : UInt32) {n : Nat} (x w : Fin n → Float) : Prop :=
  ∃ (nodes : Nodes Float) (y v : Fin n → Float) (scale : Float),
    floatRule limits n alpha = .ok nodes ∧
    nodes.locations = List.ofFn y ∧ nodes.weights = List.ofFn v ∧
    Decimal.Holds scale ((1 / 2) ^ (alpha.toNat + 1)) ∧
    (∀ i, x i = 0.5 * (1 + y i)) ∧ ∀ i, w i = v i * scale

section OnUnit

variable {limits : Limits Float} {alpha : UInt32} {n : Nat} {x w : Fin n → Float}

/-- The rule that is moved has these nodes and weights. -/
theorem OnUnit.exists_reads (h : OnUnit limits alpha x w) (halpha : alpha.toNat < 1023) :
    ∃ nodes, floatRule limits n alpha = .ok nodes ∧ (nodes.onUnit alpha.toNat).Reads x w := by
  obtain ⟨nodes, y, v, scale, hrule, hy, hv, hscale, hx, hw⟩ := h
  obtain rfl := hscale.unique (Decimal.holds_powerInt_half halpha)
  have hhalf : (0.5 : Float) = 1 / 2 := by decide +kernel
  refine ⟨nodes, hrule, ?_, ?_⟩
  · rw [Nodes.onUnit, hy, List.map_ofFn]
    exact congrArg List.ofFn (funext fun i => by rw [hx i, hhalf]; rfl)
  · rw [Nodes.onUnit, hv, List.map_ofFn]
    exact congrArg List.ofFn (funext fun i => (hw i).symm)

theorem exists_onUnit (limits : Limits Float) {alpha : UInt32} {exponent : Int} {n : Nat}
    (hpos : 1 ≤ n) (hn : n < Size.tableLimit) (hexponent : weightExponent alpha = .ok exponent)
    (halpha : alpha.toNat < 1023) : ∃ x w : Fin n → Float, OnUnit limits alpha x w := by
  obtain ⟨nodes, hnodes⟩ := rule_isOk chebyshevStart limits hpos hn hexponent
  obtain ⟨-, hlocations, hweights⟩ := length_rule hnodes
  obtain ⟨y, hy⟩ := exists_ofFn hlocations
  obtain ⟨v, hv⟩ := exists_ofFn hweights
  exact ⟨_, _, nodes, y, v, _, hnodes, hy, hv, Decimal.holds_powerInt_half halpha, fun _ => rfl,
    fun _ => rfl⟩

end OnUnit

end Gauss

namespace Registry

variable {limits : Gauss.Limits Float} {order : Nat} {x w xs ws xt wt xr wr : Fin order → Float}
  {line rule : FloatRule}

/-! ## Contents -/

theorem exists_line (limits : Gauss.Limits Float) (hpos : 1 ≤ order)
    (hsize : order < Size.tableLimit) :
    ∃ (line : FloatRule) (x w : Fin order → Float),
      contents limits .line order = .ok line ∧ line.Reads x w := by
  obtain ⟨nodes, hnodes⟩ := Gauss.rule_isOk Gauss.chebyshevStart limits hpos hsize
    (rfl : Gauss.weightExponent 0 = .ok 1)
  obtain ⟨-, hlocations, hweights⟩ := Gauss.length_rule hnodes
  obtain ⟨x, hx⟩ := exists_ofFn hlocations
  obtain ⟨w, hw⟩ := exists_ofFn hweights
  refine ⟨Rule.line order nodes, x, w, ?_, hx, congrArg some hw⟩
  rw [contents, Rule.generate, Gauss.floatRule, hnodes]
  rfl

theorem numbered_tensor (hline : contents limits .line order = .ok line) (h : line.Reads x w) :
    (contents limits .quadrilateral order = .ok rule →
      rule.Numbered (order * order) (pairPosition order) (squarePoint x w)) ∧
    (contents limits .hexahedron order = .ok rule →
      rule.Numbered (order * order * order) (triplePosition order) (cubePoint x w)) := by
  obtain ⟨hsquare, hcube⟩ := Rule.generate_tensor hline
  obtain ⟨_, -, rfl⟩ := Rule.generate_line_ok hline
  constructor
  · intro hrule
    obtain rfl := Except.ok.inj (hsquare.symm.trans hrule)
    exact Rule.numbered_quadrilateral rfl h
  · intro hrule
    obtain rfl := Except.ok.inj (hcube.symm.trans hrule)
    exact Rule.numbered_hexahedron rfl h

theorem numbered_triangle (hs : Gauss.OnUnit limits 0 xs ws) (ht : Gauss.OnUnit limits 1 xt wt)
    (hrule : contents limits .triangle order = .ok rule) :
    rule.Numbered (order * order) (pairPosition order) (trianglePoint xs ws xt wt) := by
  obtain ⟨s, hs, hreads_s⟩ := hs.exists_reads (by decide)
  obtain ⟨t, ht, hreads_t⟩ := ht.exists_reads (by decide)
  rw [contents, Rule.generate, hs, ht] at hrule
  obtain rfl := Except.ok.inj hrule
  exact Rule.numbered_triangle hreads_s hreads_t

theorem numbered_tetrahedron (hs : Gauss.OnUnit limits 0 xs ws) (ht : Gauss.OnUnit limits 1 xt wt)
    (hr : Gauss.OnUnit limits 2 xr wr) (hrule : contents limits .tetrahedron order = .ok rule) :
    rule.Numbered (order * order * order) (triplePosition order)
      (tetrahedronPoint xs ws xt wt xr wr) := by
  obtain ⟨s, hs, hreads_s⟩ := hs.exists_reads (by decide)
  obtain ⟨t, ht, hreads_t⟩ := ht.exists_reads (by decide)
  obtain ⟨r, hr, hreads_r⟩ := hr.exists_reads (by decide)
  rw [contents, Rule.generate, hs, ht, hr] at hrule
  obtain rfl := Except.ok.inj hrule
  exact Rule.numbered_tetrahedron hreads_s hreads_t hreads_r

end Registry

namespace Session

variable {requests : List Request} {id : RegistryId} {kind : Kind} {order : Nat} {config : Config}
  {rule : Shared FloatRule} {s s' : Session} {x w xs ws xt wt xr wr : Fin order → Float}

/-! ## Rules of a run -/

/-- What is obtained at an order, in whatever way. Line rules have the nodes `x` with the weights
`w`. Square and cube rules are the products of the line rule that is kept beside them. Triangle
rules are the collapsed products of `xs` and `xt`, tetrahedron rules those of `xs`, `xt` and `xr`,
with the weights `ws`, `wt` and `wr`. -/
structure Products (s : Session) (id : RegistryId) (order : Nat)
    (x w xs ws xt wt xr wr : Fin order → Float) : Prop where
  line : ∀ {rule s'}, s.Obtains id .line order rule s' → rule.value.Reads x w
  kept : ∀ {kind rule s'}, kind = .quadrilateral ∨ kind = .hexahedron →
    s.Obtains id kind order rule s' → ∃ line, s'.Holds id .line order line ∧ line.value.Reads x w
  quadrilateral : ∀ {rule s'}, s.Obtains id .quadrilateral order rule s' →
    rule.value.Numbered (order * order) (pairPosition order) (squarePoint x w)
  hexahedron : ∀ {rule s'}, s.Obtains id .hexahedron order rule s' →
    rule.value.Numbered (order * order * order) (triplePosition order) (cubePoint x w)
  triangle : ∀ {rule s'}, s.Obtains id .triangle order rule s' →
    rule.value.Numbered (order * order) (pairPosition order) (trianglePoint xs ws xt wt)
  tetrahedron : ∀ {rule s'}, s.Obtains id .tetrahedron order rule s' →
    rule.value.Numbered (order * order * order) (triplePosition order)
      (tetrahedronPoint xs ws xt wt xr wr)

/-- What is kept is what is generated under the limits of the registry. -/
theorem contents_of_holds (hlimits : (({} : Session).after requests).HasLimits id config)
    (hf : (({} : Session).after requests).Holds id kind order rule) :
    Registry.contents config.limits kind order = .ok rule.value := by
  obtain ⟨r, hr, rfl⟩ := hlimits
  rw [holds_iff hr] at hf
  exact everywhere_after Registry.determined_empty (fun h => h.determined) _ _ _ hr hf

/-- What is obtained is kept by then, under the same limits. -/
theorem Obtains.exists_after (hlimits : (({} : Session).after requests).HasLimits id config)
    (h : (({} : Session).after requests).Obtains id kind order rule s') :
    ∃ requests', s' = ({} : Session).after requests' ∧ s'.HasLimits id config ∧
      s'.Holds id kind order rule := by
  obtain ⟨more, rfl⟩ := h.eq_after
  have hs := (sound_start.after requests).after more
  exact ⟨requests ++ more, (after_append ..).symm,
    hlimits.after more, h.holds hs.filed hs.wellKept⟩

theorem Obtains.contents_of_limits (hlimits : (({} : Session).after requests).HasLimits id config)
    (h : (({} : Session).after requests).Obtains id kind order rule s') :
    Registry.contents config.limits kind order = .ok rule.value := by
  obtain ⟨requests', rfl, hlimits', hf⟩ := h.exists_after hlimits
  exact contents_of_holds hlimits' hf

/-- Beside a square or cube rule the line rule of the order is kept. -/
theorem Obtains.exists_line (hlimits : (({} : Session).after requests).HasLimits id config)
    (hk : kind = .quadrilateral ∨ kind = .hexahedron)
    (h : (({} : Session).after requests).Obtains id kind order rule s') :
    ∃ line, s'.Holds id .line order line ∧
      Registry.contents config.limits .line order = .ok line.value := by
  obtain ⟨requests', rfl, hlimits', r, hr, hf⟩ := h.exists_after hlimits
  obtain ⟨line, hline⟩ := Option.isSome_iff_exists.mp
    (((sound_start.after requests').wellKept id r hr).line hk
      (Option.isSome_iff_exists.mpr ⟨rule, hf⟩))
  exact ⟨line, ⟨r, hr, hline⟩, contents_of_holds hlimits' ⟨r, hr, hline⟩⟩

theorem products_of_limits {line : FloatRule}
    (hlimits : (({} : Session).after requests).HasLimits id config)
    (hline : Registry.contents config.limits .line order = .ok line) (hreads : line.Reads x w)
    (hs : Gauss.OnUnit config.limits 0 xs ws) (ht : Gauss.OnUnit config.limits 1 xt wt)
    (hr : Gauss.OnUnit config.limits 2 xr wr) :
    (({} : Session).after requests).Products id order x w xs ws xt wt xr wr where
  line h := by
    obtain rfl := Except.ok.inj (hline.symm.trans (h.contents_of_limits hlimits))
    exact hreads
  kept hk h := by
    obtain ⟨line', hf, hcontents⟩ := h.exists_line hlimits hk
    obtain rfl := Except.ok.inj (hline.symm.trans hcontents)
    exact ⟨line', hf, hreads⟩
  quadrilateral h := (Registry.numbered_tensor hline hreads).1 (h.contents_of_limits hlimits)
  hexahedron h := (Registry.numbered_tensor hline hreads).2 (h.contents_of_limits hlimits)
  triangle h := Registry.numbered_triangle hs ht (h.contents_of_limits hlimits)
  tetrahedron h := Registry.numbered_tetrahedron hs ht hr (h.contents_of_limits hlimits)

/-- Product rules over every run, for a registry with any limits and an order that they admit. There
are nodes and weights of which all rules of the order are made, whatever is requested before them,
and every kind has a rule of the order as far as its coordinates fit one table. The nodes of the
collapsed rules are those for the weights `(1 - x) ^ alpha`, moved to `[0, 1]`. -/
theorem products_of_run (hlimits : (({} : Session).after requests).HasLimits id config)
    (horder : config.Admits .line order) :
    ∃ x w xs ws xt wt xr wr : Fin order → Float,
      Gauss.OnUnit config.limits 0 xs ws ∧ Gauss.OnUnit config.limits 1 xt wt ∧
      Gauss.OnUnit config.limits 2 xr wr ∧
      ∀ later : List Request,
        (∀ kind, config.Admits kind order → ∃ rule s',
          (({} : Session).after (requests ++ later)).Obtains id kind order rule s') ∧
        (({} : Session).after (requests ++ later)).Products id order x w xs ws xt wt xr wr := by
  have hsize : order < Size.tableLimit :=
    lt_of_le_of_lt (Kind.order_le_coordCount horder.ne_arbitrary order) horder.coordCount_lt
  obtain ⟨line, x, w, hline, hreads⟩ := Registry.exists_line config.limits horder.one_le hsize
  obtain ⟨xs, ws, hs⟩ := Gauss.exists_onUnit config.limits horder.one_le hsize
    (rfl : Gauss.weightExponent 0 = .ok 1) (by decide)
  obtain ⟨xt, wt, ht⟩ := Gauss.exists_onUnit config.limits horder.one_le hsize
    (rfl : Gauss.weightExponent 1 = .ok 2) (by decide)
  obtain ⟨xr, wr, hr⟩ := Gauss.exists_onUnit config.limits horder.one_le hsize
    (rfl : Gauss.weightExponent 2 = .ok 3) (by decide)
  refine ⟨x, w, xs, ws, xt, wt, xr, wr, hs, ht, hr, fun later => ?_⟩
  have hlimits' : (({} : Session).after (requests ++ later)).HasLimits id config := by
    rw [after_append]
    exact after_induction hlimits (fun hs h => h.hasLimits hs) later
  refine ⟨fun kind hkind => ?_, products_of_limits hlimits' hline hreads hs ht hr⟩
  obtain ⟨registry, hregistry, rfl⟩ := hlimits'
  have htransition :=
    ruleTransition_of_wellKept (sound_start.after _).wellKept hregistry kind order
  obtain ⟨rule, s', hstep, -⟩ := htransition.answered hkind.ne_arbitrary hkind.one_le hkind.le_max
    hkind.coordCount_lt
  exact ⟨rule, s', .request rfl hstep⟩

/-- Two points of a square rule that was built before the line rule was asked for, the one of the
first and the last node and the one of the last and the first, and a point of the triangle rule
beside it. -/
theorem products_of_square_run :
    (({} : Session).after [.quadrilateral 0 3]).HasLimits 0 .standard ∧
    Config.standard.Admits .line 3 ∧
    ∃ (x w xs ws xt wt : Fin 3 → Float) (line rule collapsed : Shared FloatRule)
      (s s' s'' : Session),
      (({} : Session).after [.quadrilateral 0 3]).Obtains 0 .line 3 line s ∧
      (({} : Session).after [.quadrilateral 0 3, .line 0 3]).Obtains 0 .quadrilateral 3 rule s' ∧
      line.value.Reads x w ∧ rule.value.npoints = 9 ∧
      rule.value.points[2]? = some ⟨[x 0, x 2], some (w 0 * w 2)⟩ ∧
      rule.value.points[6]? = some ⟨[x 2, x 0], some (w 2 * w 0)⟩ ∧
      Gauss.OnUnit Config.standard.limits 0 xs ws ∧ Gauss.OnUnit Config.standard.limits 1 xt wt ∧
      (({} : Session).after [.quadrilateral 0 3]).Obtains 0 .triangle 3 collapsed s'' ∧
      collapsed.value.points[5]? = some ⟨[xs 2 * (1 - xt 1), xt 1], some (ws 2 * wt 1)⟩ := by
  have hlimits : (({} : Session).after [.quadrilateral 0 3]).HasLimits 0 .standard := ⟨_, rfl, rfl⟩
  have hadmits : Config.standard.Admits .line 3 := ⟨by decide, by decide, by decide, by decide⟩
  have hsquare : Config.standard.Admits .quadrilateral 3 :=
    ⟨by decide, by decide, by decide, by decide⟩
  have htriangle : Config.standard.Admits .triangle 3 :=
    ⟨by decide, by decide, by decide, by decide⟩
  obtain ⟨x, w, xs, ws, xt, wt, _, _, hs, ht, -, hrun⟩ := products_of_run hlimits hadmits
  obtain ⟨hbuilt, hproducts⟩ := hrun []
  obtain ⟨hbuilt', hproducts'⟩ := hrun [.line 0 3]
  obtain ⟨line, s, hline⟩ := hbuilt .line hadmits
  obtain ⟨rule, s', hrule⟩ := hbuilt' .quadrilateral hsquare
  obtain ⟨collapsed, s'', hcollapsed⟩ := hbuilt .triangle htriangle
  have hnumbered := hproducts'.quadrilateral hrule
  exact ⟨hlimits, hadmits, x, w, xs, ws, xt, wt, line, rule, collapsed, s, s', s'', hline, hrule,
    hproducts.line hline, hnumbered.npoints_eq, hnumbered.point_eq (0, 2),
    hnumbered.point_eq (2, 0), hs, ht, hcollapsed,
    (hproducts.triangle hcollapsed).point_eq (1, 2)⟩

end Session

end Cubature
