import Mathlib.Data.List.Perm.Basic
import RenderGuard.Proofs.LocalPass

/-! Passes whose step may be taken before or after any local pass over the children. -/
namespace RenderGuard.Tree

open Traced

variable {f g : Tree → Traced Tree} {t : Tree}

/-- A local pass that neither looks at nor changes the classes and arrows below a node. -/
structure Rewrite (f : Tree → Traced Tree) : Prop extends LocalPass f where
  commutes : ∀ {g}, LocalPass g → ∀ t,
    f (t.mapChildren (after g)) = mapChildren (after g) <$> f t
  sitesBelow_value : ∀ t, (f t).value.sitesBelow = t.sitesBelow

namespace Rewrite

theorem comp (hf : Rewrite f) (hg : Rewrite g) : Rewrite fun t => f t >>= g where
  toLocalPass := hf.toLocalPass.comp hg.toLocalPass
  commutes {k} hk t := by
    calc f (t.mapChildren (after k)) >>= g
      _ = mapChildren (after k) <$> f t >>= g := by rw [hf.commutes hk]
      _ = f t >>= fun u => g (u.mapChildren (after k)) := bind_map_left _ _ _
      _ = f t >>= fun u => mapChildren (after k) <$> g u := by simp only [hg.commutes hk]
      _ = mapChildren (after k) <$> (f t >>= g) := (map_bind _ _ _).symm
  sitesBelow_value t := by
    rw [value_bind, hg.sitesBelow_value, hf.sitesBelow_value]

/-- Two walks, one after the other, do what one walk with both steps does. -/
theorem after_after (hf : Rewrite f) (hg : LocalPass g) (t : Tree) :
    (t.after f).after g = t.after fun u => f u >>= g := by
  induction t using inductionOnChildren with
  | step t ih =>
    have hstep : ∀ u : Tree, (f u).value.mapChildren (after g) =
        (f (u.mapChildren (after g))).value := by
      intro u
      rw [hf.commutes hg, value_map]
    have hchildren : (t.mapChildren (after f)).mapChildren (after g) =
        t.mapChildren (after fun u => f u >>= g) := by
      rw [mapChildren_mapChildren]
      exact mapChildren_congr ih
    rw [after_eq g, after_eq f, after_eq _ t, hstep, hchildren, value_bind]

/-- The classes and arrows of the result are what the walk makes of those of the tree, one by one
and in the same order. -/
theorem sites_after (h : Rewrite f) (t : Tree) : (t.after f).sites = t.sites.map (after f) := by
  induction t using inductionOnChildren with
  | step t ih =>
    have hbelow : (t.after f).sitesBelow = t.sitesBelow.map (after f) := by
      calc (t.after f).sitesBelow
        _ = (t.mapChildren (after f)).sitesBelow := by rw [after_eq, h.sitesBelow_value]
        _ = t.children.flatMap fun c => (c.after f).sites := by
          rw [sitesBelow, children_mapChildren, List.flatMap_map]
        _ = t.children.flatMap fun c => c.sites.map (after f) := List.flatMap_congr ih
        _ = t.sitesBelow.map (after f) := List.map_flatMap.symm
    rw [sites_eq, sites_eq t, h.isSite_after, hbelow, List.map_append]
    split <;> rfl

theorem events_mapChildren (h : Rewrite f) (hg : LocalPass g) (t : Tree) :
    (f (t.mapChildren (after g))).events = (f t).events := by
  rw [h.commutes hg, events_map]

theorem wrapped_mapChildren (h : Rewrite f) (hg : LocalPass g) (t : Tree) :
    (f (t.mapChildren (after g))).wrapped = (f t).wrapped := by
  rw [h.commutes hg, wrapped_map]

/-- The events of a walk are, up to their order, those of its step at every node of the tree it
starts from. -/
theorem events_perm (h : Rewrite f) (t : Tree) :
    (t.traverse f).events.Perm (t.nodes.flatMap fun n => (f n).events) := by
  induction t using inductionOnChildren with
  | step t ih =>
    rw [events_traverse, h.events_mapChildren h.toLocalPass, nodes_eq, List.flatMap_cons,
      List.flatMap_assoc]
    exact List.perm_append_comm.trans ((List.Perm.refl _).append (List.Perm.flatMap_left _ ih))

theorem wrapped_eq (h : Rewrite f) (t : Tree) :
    (t.traverse f).wrapped = t.nodes.any fun n => (f n).wrapped := by
  induction t using inductionOnChildren with
  | step t ih =>
    have hbelow : (t.children.any fun c => (c.traverse f).wrapped) =
        t.children.any fun c => c.nodes.any fun n => (f n).wrapped := any_congr_of_mem ih
    have htop : (f (t.mapChildren (after f))).wrapped = (f t).wrapped :=
      h.wrapped_mapChildren h.toLocalPass t
    rw [wrapped_traverse, hbelow, htop, nodes_eq, List.any_cons, List.any_flatMap, Bool.or_comm]

end Rewrite

end RenderGuard.Tree
