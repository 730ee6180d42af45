import VariHist.Events.Cast
import VariHist.Table.Machine

/-!
# Where commands are carried out

The machine that commands are carried out on, and their way to cast cells, where nothing else is
said.
-/

namespace VariHist

instance : Machine :=
  .oneThread

instance : CellCast :=
  Events.plainCast

end VariHist
