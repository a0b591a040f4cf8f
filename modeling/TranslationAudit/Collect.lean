import TranslationAudit.Collect.Fusion
import TranslationAudit.Collect.NodeType.Checked
import TranslationAudit.Collect.Php

/-! # References in source files

* `sourceFormat?`: the kind of a source file by its name.
* `collectReferences?`: the references in the text of a file, in the order of the kind, or none where
  a node type file cannot be cut up. The program stops there.
-/

namespace TranslationAudit

def sourceFormat? (file : String) : Option SourceFormat :=
  if Path.hasExtension file ["php"] then some .php
  else if Path.hasExtension file ["fusion", "afx"] then some .fusion
  else if Path.hasExtensionIgnoringCase file "yaml" then some .yaml
  else none

def collectReferences? (format : SourceFormat) (file text : String) : Option (List Reference) :=
  match format with
  | .php => some (collectPhp file text)
  | .fusion => some (collectFusion file text)
  | .yaml => collectNodeTypes? file text

end TranslationAudit
