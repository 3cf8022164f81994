import SevenDB.Cmd.SetGet
import SevenDB.Store.Accessors

/-!
# Expired keys in the results of commands

Lookups do not see expired keys, so neither does EXISTS. DEL deletes and counts a key whether it has expired or
not, and the accessors for all keys list and count expired keys too.
-/

namespace SevenDB.Cmd

open SevenDB.Common SevenDB.Types SevenDB.Store

end SevenDB.Cmd
