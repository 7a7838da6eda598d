/-!
# Causes for being out of office

A corpus of what may keep somebody out of the office today.
-/

namespace ChoiceGrammar.Catalog

def outOfOfficeCauses : String :=
  "\n".intercalate [
    "# Causes for being out of office today.",
    "# Bad luck",
    "<the dog ate my shoes|a tree fell on my car|my toe is trapped in the bath tap>",
    "I've had a <sleepless night|hair dye disaster>",
    "my trousers split on the way to work",
    "I am stuck in my house because the door's broken",
    "# Absent-minded",
    "I forgot <to come back to work after lunch|what day of the week it was>",
    "my brain went to sleep, and I couldn't wake it up",
    "I woke up late and missed my <train|bus|ferry>... again",
    "# Police and legal",
    "my bus broke down and was held up by robbers",
    "I was arrested as a result of mistaken identity",
    "I totaled my <wife's jeep|car> in a collision with a cow",
    "I had to be there for my partner's grand jury trial",
    "# Medical",
    "I <tripped over my dog and was knocked unconscious|burned my hand on the toaster|hurt myself bowling><|, I should go to the hospital|, I am heading to the doctor|, so it seems I need a MD>",
    "I have a <blocked nose|sore finger|pretty bad back pain>",
    "I was swimming too fast and smacked my head on the poolside",
    "# Pets",
    "my <fish|cat|hamster> is sick",
    "my cat puked last night, it kept me up late and I'm too tired"] ++ "\n"

end ChoiceGrammar.Catalog
