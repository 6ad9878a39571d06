/-
  The lemmas on lists, options and updated functions that the development uses
  throughout, under their own names.
-/

import Mathlib.Data.List.Basic
import Mathlib.Data.List.Nodup
import Mathlib.Data.Set.Basic
import Mathlib.Logic.Function.Basic
import Mathlib.Tactic.Common

namespace Noverix

export Function (update update_apply update_eq_self update_idem update_of_ne update_self)

export Option (bind_eq_bind bind_eq_some_iff bind_some getD_some map_eq_none_iff map_eq_some_iff
  map_none map_some none_or some.inj some_inj some_ne_none)

export List (append_assoc append_eq_nil_iff append_nil cons_append cons_ne_nil drop_zero ext_getElem
  filterMap_append filterMap_congr find?_append find?_cons find?_eq_none find?_range_eq_some
  find?_some findSome?_cons flatMap_append flatMap_congr flatMap_cons flatMap_singleton foldlM_cons
  foldl_append foldl_cons foldl_nil forall_mem_cons getElem?_eq_getElem getElem?_eq_some_iff
  head?_cons length_append length_cons length_map length_nil length_range length_singleton
  length_take map_append map_congr_left map_cons map_map map_nil map_singleton map_take mem_append
  mem_append_left mem_append_right mem_cons mem_cons_of_mem mem_cons_self mem_filterMap mem_flatMap
  mem_map mem_map_of_mem mem_of_find?_eq_some mem_of_mem_take mem_range mem_range'_1 mem_singleton
  mem_singleton_self nil_append nodup_append nodup_cons nodup_nil nodup_range' not_mem_nil
  perm_cons_erase perm_middle range range' range_add range_succ range_succ_eq_map range_zero
  replicate replicate_succ singleton_append suffix_refl take_of_length_le take_range take_succ_cons
  take_take take_zero)

export Nat (mod_eq_of_lt)

export Set (notMem_empty)

export UInt32 (toNat_ofNat_of_lt')

end Noverix
